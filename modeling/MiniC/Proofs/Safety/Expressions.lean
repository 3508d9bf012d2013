import MiniC.Proofs.Safety.Calls

/-!
# Safe expressions

The code of an accepted expression is safe if what follows it is: it changes temporary cells,
variables and elements only, and the value of an expression that names an array is the address of
that array. One statement for each form of expression; calls are safe by assumption, for fewer
steps. Behind an expression the book is as it was before: what the calls in it have put aside they
were given, and its operands have been loaded.

* `ExpSafe`: an expression is safe in the running function
* `exp_safe`: every accepted expression is
-/

namespace MiniC

variable {σ : Type}

/-- A function runs code in the scopes `S`, and calls are safe for fewer than `N` steps. -/
structure Context (P : Scene σ) (ds : List Decl) (f : CompiledFunction) (S : ScopeTable)
    (a : Activation) (N : Nat) : Prop where
  fits : P.Fits
  valid : f.Valid ds P.scope P.pool
  names : Scoped P.scope f.slots S
  ready : Ready S a
  calls : CallsSafe P N

/-- The expression is safe wherever its code lies, for at most `N` steps. -/
def ExpSafe (P : Scene σ) (f : CompiledFunction) (S : ScopeTable) (gs : List Extent)
    (a : Activation)
    (rest : List Activation) (N : Nat) (e : Exp) : Prop :=
  ∀ {offset start ty is}, e.Emits S f.linker offset start ty is → Holds P.code start is →
    Holds P.marks start (e.check S).exp.marks → offset ≤ f.frameEnd → -2 ^ 31 ≤ offset →
    ∀ {n : Nat} {c : Core} {io : σ} {page : Page} {book : Book}, n ≤ N → c.pc = start →
      InFrame P f c gs a rest →
      (∀ m ≤ n, ∀ (c' : Core) (io' : σ), c'.pc = start + is.length → InFrame P f c' gs a rest →
        Kept P f a rest (a.base + offset) c.mem c'.mem →
        (∀ v, (e.check S).exp.arrayName = some v →
          c'.ac = refWord ((⟨gs, a :: rest⟩ : Shadow).denote P.top v)) →
        Safe P m ⟨c'.machine, io', ⟨gs, a :: rest⟩⟩ (page :: book)) →
      Safe P n ⟨c.machine, io, ⟨gs, a :: rest⟩⟩ (page :: book)

section Expressions

variable {P : Scene σ} {ds : List Decl} {f : CompiledFunction} {S : ScopeTable} {gs : List Extent}
  {a : Activation} {rest : List Activation} {N : Nat} {page : Page} {book : Book}

/-- A temporary cell is kept by code that works below it. -/
theorem InFrame.kept_temporary {c : Core} {mem : Memory} (hf : f.Valid ds P.scope P.pool)
    (h : InFrame P f c gs a rest) {d floor : Int} (hkept : Kept P f a rest floor c.mem mem)
    (hd : d ≤ f.frameEnd) (hfloor : floor < a.base + d) :
    mem.read (a.base + d) = c.mem.read (a.base + d) := by
  have hbase := h.base_range
  have hle := hf.tiled.le
  unfold firstFrameOffset at hle
  apply hkept _ hfloor (by omega)
  · rintro ⟨v, hv, -, hlow, -⟩
    have := (hf.tiled.within v hv).1
    omega
  · rintro e he ⟨hlow, -⟩
    obtain ⟨-, -, -, -, habove, -⟩ := h.sound.framed
    have := habove e he
    omega

/-! ### Constants, unary operators and variables

These load a register and change nothing else, so every instruction of them is good for what it is.
-/

/-- A number is loaded. -/
theorem ExpSafe.int (hC : Context P ds f S a N) (p : Pos) (value : Nat) :
    ExpSafe P f S gs a rest N (.int p value) := by
  intro offset start ty is h hcode hmarks _ _ n c io page book hn hpc hin hnext
  obtain ⟨-, rfl⟩ := Exp.emits_int h
  simp only [Exp.check, Exp.marks, holds_cons] at hcode hmarks
  subst hpc
  apply hin.constant hC.fits hcode.1 (Or.inl rfl) hmarks.1
  intro m hm
  apply hnext m (by omega) (c.next.put .ac _) io rfl (hin.of_eq rfl rfl rfl) Kept.refl
  intro v hv
  cases hv

/-- A truth value is loaded. -/
theorem ExpSafe.bool (hC : Context P ds f S a N) (p : Pos) (value : Bool) :
    ExpSafe P f S gs a rest N (.bool p value) := by
  intro offset start ty is h hcode hmarks _ _ n c io page book hn hpc hin hnext
  obtain ⟨-, rfl⟩ := Exp.emits_bool h
  simp only [Exp.check, Exp.marks, holds_cons] at hcode hmarks
  subst hpc
  apply hin.constant hC.fits hcode.1 (Or.inl rfl) hmarks.1
  intro m hm
  apply hnext m (by omega) (c.next.put .ac _) io rfl (hin.of_eq rfl rfl rfl) Kept.refl
  intro v hv
  cases hv

/-- The empty expression has no code. -/
theorem ExpSafe.nil (p : Pos) : ExpSafe P f S gs a rest N (.nil p) := by
  intro offset start ty is h _ _ _ _ n c io page book hn hpc hin hnext
  obtain ⟨-, rfl⟩ := Exp.emits_nil h
  apply hnext n (Nat.le_refl n) c io hpc hin Kept.refl
  intro v hv
  cases hv

/-- An operand, and then instructions on registers. -/
theorem ExpSafe.unary (hC : Context P ds f S a N) {p : Pos} {t : Option Ty} {op : UnaryOp} {e : Exp}
    (he : ExpSafe P f S gs a rest N e) : ExpSafe P f S gs a rest N (.unary p t op e) := by
  intro offset start ty is h hcode hmarks hoff hlow n c io page book hn hpc hin hnext
  obtain ⟨-, i, hi, rfl⟩ := Exp.emits_unary h
  rw [holds_append] at hcode
  have hlen := hi.length_marks
  -- the result of an operator is no array
  have hname : ∀ v, ((Exp.unary p t op e).check S).exp.arrayName = some v → False := by
    intro v hv
    cases hv
  cases op with
  | neg =>
    simp only [Exp.check, Exp.marks, holds_append, hlen, List.replicate_succ, List.replicate_zero,
      holds_cons] at hmarks
    simp only [Exp.unaryTail, holds_cons] at hcode
    apply he hi hcode.1 hmarks.1 hoff hlow hn hpc hin
    intro m hm c₁ io₁ hpc₁ hin₁ hkept₁ _
    rw [← hpc₁] at hcode hmarks
    apply hin₁.constant hC.fits hcode.2.1 (Or.inr rfl) hmarks.2.1
    intro m₁ hm₁
    have hin₂ : InFrame P f (c₁.next.put .ac1 (Int64.ofInt 0)) gs a rest := hin₁.of_eq rfl rfl rfl
    apply hin₂.arithmetic hC.fits hcode.2.2.1 (Or.inl rfl) (Or.inr rfl)
      (Or.inl rfl) hmarks.2.2.1 rfl
    intro m₂ hm₂
    apply hnext m₂ (by omega) ((c₁.next.put .ac1 (Int64.ofInt 0)).next.put .ac _) io₁ _
      (hin₁.of_eq rfl rfl rfl) hkept₁
    · exact fun v hv => (hname v hv).elim
    · rw [List.length_append, ← Nat.add_assoc, ← hpc₁]
      rfl
  | not =>
    simp only [Exp.check, Exp.marks, holds_append, hlen] at hmarks
    simp only [Exp.unaryTail] at hcode
    apply he hi hcode.1 hmarks.1 hoff hlow hn hpc hin
    intro m hm c₁ io₁ hpc₁ hin₁ hkept₁ _
    apply hin₁.truthValue hC.fits hpc₁ hcode.2 hmarks.2 rfl
    intro m₁ hm₁ c₂ hpc₂ hmem₂ hin₂
    rw [← hmem₂] at hkept₁
    apply hnext m₁ (by omega) c₂ io₁ _ hin₂ hkept₁
    · exact fun v hv => (hname v hv).elim
    · rw [hpc₂, List.length_append, Nat.add_assoc]
      rfl

/-- A variable is loaded: its value, the address of its array, or the reference that it holds. -/
theorem ExpSafe.var (hC : Context P ds f S a N) (t : Option Ty) (v : VarUse) :
    ExpSafe P f S gs a rest N (.var t v) := by
  intro offset start ty is h hcode hmarks _ _ n c io page book hn hpc hin hnext
  obtain ⟨y, l, text, hl, rfl⟩ := Exp.emits_var h
  have hcheck : v.check S = ⟨{ v with layout := some l }, ty, []⟩ := by
    unfold VarUse.check
    rw [hl]
  simp only [Exp.check, Exp.marks, holds_cons] at hcode hmarks
  subst hpc
  have hop : l.storage.loadOp ≠ .st := by cases l.storage <;> exact Opcode.noConfusion
  apply hin.load hC.fits hC.valid hC.names hC.ready (v := { v with layout := some l }) hl rfl
    (Or.inl rfl) hcode.1 (reloading_of_quiet hC.fits hcode.1 (by simp [Instr.reloads]))
    (by simp [Instr.noted, Instr.pushesLeft, Instr.loadsLeft, hop]) hmarks.1
  intro w hw m hm
  apply hnext m (by omega) (c.next.put .ac w) io rfl (hin.of_eq rfl rfl rfl) Kept.refl
  intro u hu
  simp only [Exp.check, hcheck, Exp.arrayName] at hu
  split at hu
  · rename_i harray
    cases hu
    exact hw harray
  · cases hu

/-! ### Binary operators

The left operand is put aside in the frame and noted in the book, and taken from both after the
right operand. In between the code of the right operand runs, of which the invariant says that it
keeps this cell. -/

/-- The jumps of comparisons and short circuits are conditional jumps. -/
theorem BinaryOp.jumps?_eq_some {op : BinaryOp} {jump : Opcode}
    (h : op.combination = .comparison jump ∨ ∃ t, op.combination = .shortCircuit jump t)
    (w : Word) :
    ∃ taken, Machine.jumps? jump w = some taken := by
  rcases h with h | ⟨t, h⟩ <;> cases op <;> cases h <;> exact ⟨_, rfl⟩

/-- The left operand, a jump, and the right one, which is in the book only if it is reached. -/
theorem ExpSafe.shortCircuit (hC : Context P ds f S a N) {p : Pos} {t : Option Ty} {op : BinaryOp}
    {l r : Exp} {jump : Opcode} {comment : String}
    (hop : op.combination = .shortCircuit jump comment)
    (hl : ExpSafe P f S gs a rest N l) (hr : ExpSafe P f S gs a rest N r) :
    ExpSafe P f S gs a rest N (.binary p t op l r) := by
  intro offset start ty is h hcode hmarks hoff hlow n c io page book hn hpc hin hnext
  obtain ⟨-, i, j, skip, hi, hj, hskip, rfl⟩ := Exp.emits_shortCircuit hop h
  have hlen := hC.fits.code_lt
  have hleni := hi.length_marks
  have hlenj := hj.length_marks
  have hbound := hcode.bound (by simp)
  rw [List.length_append, List.length_cons] at hbound
  obtain rfl := Instr.relative_eq_ok hskip (by omega) (by omega)
  simp only [Exp.check, Exp.marks, hop, holds_append, holds_cons, hleni] at hcode hmarks
  apply hl hi hcode.1 hmarks.1 hoff hlow hn hpc hin
  intro m hm c₁ io₁ hpc₁ hin₁ hkept₁ _
  have hskip := hcode.2.1
  have hmark := hmarks.2.1
  rw [← hpc₁] at hskip hmark
  obtain ⟨taken, htaken⟩ := BinaryOp.jumps?_eq_some (Or.inr ⟨comment, hop⟩) c₁.ac
  apply hin₁.branch hC.fits hskip (Or.inl rfl) hmark htaken
    (k := start + i.length + 1 + j.length) (by omega) (by omega)
  · -- the left operand decides: its value is the result
    intro _ m₁ hm₁
    apply hnext m₁ (by omega) { c₁ with pc := start + i.length + 1 + j.length } io₁ _
      (hin₁.of_eq rfl rfl rfl) hkept₁
    · intro v hv
      cases hv
    · simp only [List.length_append, List.length_cons]
      omega
  · -- the right operand is evaluated from where the left one ended
    intro _ m₁ hm₁
    apply hr hj hcode.2.2 hmarks.2.2 hoff hlow (by omega) (c := c₁.next) _ (hin₁.of_eq rfl rfl rfl)
    · intro m₂ hm₂ c₂ io₂ hpc₂ hin₂ hkept₂ _
      apply hnext m₂ (by omega) c₂ io₂ _ hin₂ (hkept₁.trans hkept₂ (Int.le_refl _))
      · intro v hv
        cases hv
      · rw [hpc₂]
        simp only [List.length_append, List.length_cons]
        omega
    · show c₁.pc + 1 = _
      omega

/-- Both operands are evaluated, the left one is put aside meanwhile and then loaded. -/
theorem operands_safe (hC : Context P ds f S a N) {offset : Int} {start : Nat} {l r : Exp}
    {tyl tyr : Ty} {i j : List Instr} (hl : ExpSafe P f S gs a rest N l)
    (hr : ExpSafe P f S gs a rest N r) (hi : l.Emits S f.linker offset start tyl i)
    (hj : r.Emits S f.linker (offset - 1) (start + i.length + 1) tyr j)
    {op : Opcode} {x y z : Reg} {t : String}
    (hcode : Holds P.code start (i ++ (.rm .st .ac offset .fp "op: push left" :: (j ++
      [.rm .ld .ac1 offset .fp "op: load left", .ro op x y z t]))))
    (hmarks : Holds P.marks start ((l.check S).exp.marks ++ (.body :: ((r.check S).exp.marks ++
      [.body, .body]))))
    (hoff : offset ≤ f.frameEnd) (hlow : -2 ^ 31 ≤ offset - 1) {n : Nat} {c : Core} {io : σ}
    (hn : n ≤ N) (hpc : c.pc = start) (hin : InFrame P f c gs a rest)
    (hnext : ∀ m < n, ∀ (c' : Core) (io' : σ), c'.pc = start + i.length + j.length + 2 →
      P.code[c'.pc]? = some (.ro op x y z t) → P.marks[c'.pc]? = some .body →
      InFrame P f c' gs a rest → Kept P f a rest (a.base + offset) c.mem c'.mem →
      Safe P m ⟨c'.machine, io', ⟨gs, a :: rest⟩⟩ (page :: book)) :
    Safe P n ⟨c.machine, io, ⟨gs, a :: rest⟩⟩ (page :: book) := by
  have hle := hC.valid.tiled.le
  unfold firstFrameOffset at hle
  simp only [holds_append, holds_cons, hi.length_marks, hj.length_marks] at hcode hmarks
  obtain ⟨hcodei, hpush, hcodej, hpull, hlast, -⟩ := hcode
  obtain ⟨hmarksi, hmpush, hmarksj, hmpull, hmlast, -⟩ := hmarks
  have hspans : Spans P.code offset (start + i.length) (start + i.length + 1 + j.length) :=
    ⟨hpush, hpull, _, _, j, hj.code_eq, hcodej, rfl⟩
  apply hl hi hcodei hmarksi hoff (by omega) hn hpc hin
  intro m hm c₁ io₁ hpc₁ hin₁ hkept₁ _
  rw [← hpc₁] at hpush hmpush
  apply hin₁.pushLeft hC.fits hC.valid hpush (by omega) hoff hmpush
  intro hpos m₂ hm₂ c₂ hpc₂ hread₂ hin₂ hkept₂ _
  apply hr hj hcodej hmarksj (by omega) hlow (by omega) (by omega) hin₂
  intro m₃ hm₃ c₃ io₃ hpc₃ hin₃ hkept₃ _
  -- the operand that was put aside is still there
  have hread₃ := hin₂.kept_temporary hC.valid hkept₃ hoff (by omega)
  rw [← hpc₃] at hpull hmpull hlast hmlast hspans
  rw [← hpc₁] at hspans
  apply hin₃.pullLeft hC.fits hpull hspans hpos (hread₃.trans hread₂) (by omega) (by omega) hlast
    hmpull
  intro m₄ hm₄
  apply hnext m₄ (by omega) { c₃.next with ac1 := c₁.ac } io₃
  · show c₃.pc + 1 = _
    omega
  · exact hlast
  · exact hmlast
  · exact hin₃.of_eq rfl rfl rfl
  · exact (hkept₁.trans hkept₂ (Int.le_refl _)).trans hkept₃ (by omega)

/-- Two operands, and an instruction on registers. -/
theorem ExpSafe.operation (hC : Context P ds f S a N) {p : Pos} {t : Option Ty} {op : BinaryOp}
    {l r : Exp} {operation : Opcode} (hop : op.combination = .operation operation)
    (hl : ExpSafe P f S gs a rest N l) (hr : ExpSafe P f S gs a rest N r) :
    ExpSafe P f S gs a rest N (.binary p t op l r) := by
  intro offset start ty is h hcode hmarks hoff hlow n c io page book hn hpc hin hnext
  obtain ⟨-, i, j, hi, hlow', hj, rfl⟩ := Exp.emits_operation hop h
  have hcode' : Holds P.code start (i ++ (.rm .st .ac offset .fp "op: push left" :: (j ++
      [.rm .ld .ac1 offset .fp "op: load left",
        .ro operation .ac .ac1 .ac s!"op {op.symbol}"]))) := by
    simpa using hcode
  have hmarks' : Holds P.marks start ((l.check S).exp.marks ++ (.body :: ((r.check S).exp.marks ++
      [.body, .body]))) := by
    simpa [Exp.check, Exp.marks, hop, List.replicate_succ] using hmarks
  apply operands_safe hC hl hr hi hj hcode' hmarks' hoff hlow' hn hpc hin
  intro m hm c₁ io₁ hpc₁ hlast hmark hin₁ hkept₁
  have hdone : ∀ (w : Word), ∀ m' < m, Safe P m' ⟨{ c₁.next with ac := w }.machine, io₁,
      ⟨gs, a :: rest⟩⟩ (page :: book) := by
    intro w m' hm'
    apply hnext m' (by omega) { c₁.next with ac := w } io₁ _ (hin₁.of_eq rfl rfl rfl) hkept₁
    · intro v hv
      cases hv
    · show c₁.pc + 1 = _
      simp only [List.length_append, List.length_cons, List.length_nil]
      omega
  -- only a division can stop the run
  cases op <;> cases hop
  case add =>
    exact hin₁.arithmetic hC.fits hlast (Or.inl rfl) (Or.inr rfl) (Or.inl rfl) hmark rfl (hdone _)
  case sub =>
    exact hin₁.arithmetic hC.fits hlast (Or.inl rfl) (Or.inr rfl) (Or.inl rfl) hmark rfl (hdone _)
  case mul =>
    exact hin₁.arithmetic hC.fits hlast (Or.inl rfl) (Or.inr rfl) (Or.inl rfl) hmark rfl (hdone _)
  case div => exact hin₁.divide hC.fits hlast hmark hdone

/-- Two operands, and the code of a truth value. -/
theorem ExpSafe.comparison (hC : Context P ds f S a N) {p : Pos} {t : Option Ty} {op : BinaryOp}
    {l r : Exp} {jump : Opcode} (hop : op.combination = .comparison jump)
    (hl : ExpSafe P f S gs a rest N l) (hr : ExpSafe P f S gs a rest N r) :
    ExpSafe P f S gs a rest N (.binary p t op l r) := by
  intro offset start ty is h hcode hmarks hoff hlow n c io page book hn hpc hin hnext
  obtain ⟨-, i, j, base, -, hi, hlow', hj, rfl⟩ := Exp.emits_comparison hop h
  -- the code as one of two operands, which `operands_safe` runs, and the truth value behind it
  have hcode' : Holds P.code start (i ++ (.rm .st .ac offset .fp "op: push left" :: (j ++
      [.rm .ld .ac1 offset .fp "op: load left", .ro .sub .ac .ac1 .ac s!"op {op.symbol}"])) ++
      truthValue jump op.symbol) := by
    simpa using hcode
  have hmarks' : Holds P.marks start ((l.check S).exp.marks ++ (.body :: ((r.check S).exp.marks ++
      [.body, .body])) ++ List.replicate 4 .body) := by
    simpa [Exp.check, Exp.marks, hop, List.replicate_succ] using hmarks
  rw [holds_append] at hcode' hmarks'
  obtain ⟨hcode₁, hvalue⟩ := hcode'
  obtain ⟨hmarks₁, hmvalue⟩ := hmarks'
  simp only [List.length_append, List.length_cons, List.length_nil, hi.length_marks,
    hj.length_marks] at hvalue hmvalue
  apply operands_safe hC hl hr hi hj hcode₁ hmarks₁ hoff hlow' hn hpc hin
  intro m hm c₁ io₁ hpc₁ hsub hmsub hin₁ hkept₁
  rw [show start + (i.length + (j.length + (0 + 1 + 1) + 1)) = c₁.pc + 1 by omega] at hvalue hmvalue
  apply hin₁.arithmetic hC.fits hsub (Or.inl rfl) (Or.inr rfl) (Or.inl rfl) hmsub rfl
  intro m₂ hm₂
  -- the jump on the difference is taken or not, and both ways come out behind the truth value
  obtain ⟨taken, htaken⟩ := BinaryOp.jumps?_eq_some (Or.inl hop) (c₁.ac1 - c₁.ac)
  have hin₂ : InFrame P f (c₁.next.put .ac (c₁.ac1 - c₁.ac)) gs a rest := hin₁.of_eq rfl rfl rfl
  apply hin₂.truthValue hC.fits rfl hvalue hmvalue htaken
  intro m₃ hm₃ c₃ hpc₃ hmem₃ hin₃
  apply hnext m₃ (by omega) c₃ io₁ _ hin₃ (by rw [hmem₃]; exact hkept₁)
  · intro v hv
    cases hv
  · rw [hpc₃]
    simp only [List.length_append, List.length_cons, truthValue, List.length_nil]
    show c₁.pc + 1 + 4 = _
    omega

/-- Every binary operator is of one of these three kinds. -/
theorem ExpSafe.binary (hC : Context P ds f S a N) {p : Pos} {t : Option Ty} {op : BinaryOp}
    {l r : Exp} (hl : ExpSafe P f S gs a rest N l) (hr : ExpSafe P f S gs a rest N r) :
    ExpSafe P f S gs a rest N (.binary p t op l r) := by
  cases hop : op.combination with
  | operation operation => exact ExpSafe.operation hC hop hl hr
  | comparison jump => exact ExpSafe.comparison hC hop hl hr
  | shortCircuit jump comment => exact ExpSafe.shortCircuit hC hop hl hr

/-! ### Elements and assignments

What is assigned to may be a variable of the frame, a global one, or an element of an array that
exists. Each of these cells may be stored to, for a reason of its own. -/

/-- The occurrence of an indexed array with the storage that was found for it. -/
theorem VarUse.checkIndexed_var {v : VarUse} {index : Ty} {y : String} {ty : Ty} {l : Layout}
    (hl : S.lookup v.name = some (.var y ty l)) :
    (v.checkIndexed S index).var = { v with layout := some l } := by
  unfold VarUse.checkIndexed
  rw [hl]

/-- The address of an element, which has been checked, and then a load from there. -/
theorem ExpSafe.element (hC : Context P ds f S a N) {t : Option Ty} {v : VarUse} {index : Exp}
    (hindex : ExpSafe P f S gs a rest N index) :
    ExpSafe P f S gs a rest N (.element t v index) := by
  intro offset start ty is h hcode hmarks hoff hlow n c io page book hn hpc hin hnext
  obtain ⟨y, aty, l, i, es, text, hl, harray, -, hi, hes, rfl⟩ := Exp.emits_element h
  simp only [Exp.check, Exp.marks, VarUse.checkIndexed_var hl, holds_append, hi.length_marks,
    List.length_replicate] at hmarks
  simp only [holds_append, hes.length_eq] at hcode
  obtain ⟨hcodei, hcodes, haccess⟩ := hcode
  obtain ⟨hmarksi, hmarkss, hmaccess⟩ := hmarks
  rw [holds_cons] at haccess hmaccess
  apply hindex hi hcodei hmarksi hoff hlow hn hpc hin
  intro m hm c₁ io₁ hpc₁ hin₁ hkept₁ _
  apply hin₁.elementAddress hC.fits hC.valid hC.names hC.ready (v := { v with layout := some l }) hl
    rfl harray hes hpc₁ hcodes hmarkss
  intro m₂ hm₂ c₂ e x hpc₂ hmem₂ hin₂ hdenote hlive helem hac
  rw [← hpc₂] at haccess hmaccess
  apply hin₂.loadElement hC.fits haccess.1 hmaccess.1 hac hdenote hlive helem
  intro m₃ hm₃
  apply hnext m₃ (by omega) { c₂.next with ac := c₂.mem.read x } io₁ _ (hin₂.of_eq rfl rfl rfl)
    (by rw [← hmem₂] at hkept₁; exact hkept₁)
  · intro u hu
    cases hu
  · show c₂.pc + 1 = _
    simp only [List.length_append, List.length_cons, List.length_nil, hes.length_eq]
    omega

/-- The store of an assignment is not noted. -/
theorem Exp.noted_assign {k : Linker} {p : Pos} {t : Option Ty} {v : VarUse} {value : Exp}
    {offset : Int} {start : Nat} {is : List Instr}
    (h : (Exp.assign p t v value).code k offset start = .ok is) :
    ∀ i (store : Instr), is = i ++ [store] → store.noted = false := by
  cases Exp.coded h with
  | assign he hstore =>
    intro i store heq
    obtain ⟨-, hlast⟩ := List.append_inj' heq rfl
    rw [← (List.cons.inj hlast).1]
    exact VarUse.noted_store hstore

/-- A value is stored in a cell of the frame or of the globals. -/
theorem ExpSafe.assign (hC : Context P ds f S a N) {p : Pos} {t : Option Ty} {v : VarUse}
    {value : Exp}
    (hvalue : ExpSafe P f S gs a rest N value) :
    ExpSafe P f S gs a rest N (.assign p t v value) := by
  intro offset start ty is h hcode hmarks hoff hlow n c io page book hn hpc hin hnext
  have hnoted := Exp.noted_assign h.code_eq
  obtain ⟨y, l, i, text, hl, hty, -, hi, rfl⟩ := Exp.emits_assign h
  replace hnoted := hnoted i _ rfl
  simp only [Exp.check, Exp.marks, holds_append, holds_cons, hi.length_marks] at hcode hmarks
  apply hvalue hi hcode.1 hmarks.1 hoff hlow hn hpc hin
  intro m hm c₁ io₁ hpc₁ hin₁ hkept₁ _
  rw [← hpc₁] at hcode hmarks
  apply hin₁.store hC.fits hC.valid hC.names hl hty hcode.2.1 hnoted hmarks.2.1
  intro m₂ hm₂ c₂ hpc₂ hin₂ hkept₂
  apply hnext m₂ (by omega) c₂ io₁ _ hin₂ (hkept₁.trans hkept₂ (Int.le_refl _))
  · intro u hu
    cases hu
  · rw [List.length_append, List.length_cons, List.length_nil]
    omega

/-- A store to an element of an existing array. -/
theorem InFrame.write_element (hP : P.Fits) (hf : f.Valid ds P.scope P.pool) {c : Core}
    (h : InFrame P f c gs a rest) {e : Extent} {x floor : Int} (w : Word)
    (he : e ∈ (⟨gs, a :: rest⟩ : Shadow).live) (hx : e.Element x) {c' : Core}
    (hmem : c'.mem = c.mem.write x w) (hgp : c'.gp = c.gp) (hfp : c'.fp = c.fp) :
    InFrame P f c' gs a rest ∧ Kept P f a rest floor c.mem c'.mem := by
  have hrange := h.sound.range hP.globalsEnd_le he
  have hlow := hx.1
  have hhigh := hx.2
  have hpos : 0 < x := by omega
  simp only [Shadow.live, List.flatMap_cons, List.mem_append] at he
  -- the element belongs to a global array, to the function, or to one that waits
  have hplace : P.base < x ∨ f.Owns a.base x ∨ ∃ e ∈ rest.flatMap Activation.arrays,
      e.Element x := by
    rcases he with he | he | he
    · have := (h.sound.globals e he).2.1
      exact Or.inl (by omega)
    · obtain ⟨s, hs, hshape, hbase⟩ := h.arrays e he
      refine Or.inr (Or.inl ⟨s, hs, ?_, by omega, ?_⟩)
      · rw [hshape]
        exact Shape.noConfusion
      · simp only [Slot.top, hshape, Shape.elements]
        omega
    · exact Or.inr (Or.inr ⟨e, he, hx⟩)
  have href : ∀ v ∈ f.slots, v.shape = .reference → x ≠ a.base + v.offset := by
    intro v hv hshape heq
    have hbase := h.base_range
    have hwithin := hf.tiled.within v hv
    have htop := v.offset_le_top
    unfold firstFrameOffset at hwithin
    rcases hplace with hp | hp | ⟨e', he', hp⟩
    · omega
    · rw [heq] at hp
      exact hf.not_owns_reference hv hshape a.base hp
    · obtain ⟨-, -, -, -, habove, -⟩ := h.sound.framed
      have := habove e' he'
      have := hp.1
      omega
  refine ⟨h.write hP hpos (h.storable_element (by simpa [Shadow.live] using he) hx) href hmem
    hgp hfp, ?_⟩
  rw [hmem]
  exact Kept.write hpos w (Or.inr hplace)

/-- The address of an element is put aside like a left operand, and stored to in the end. -/
theorem ExpSafe.assignElement (hC : Context P ds f S a N) {p : Pos} {t : Option Ty} {v : VarUse}
    {index value : Exp} (hindex : ExpSafe P f S gs a rest N index)
    (hvalue : ExpSafe P f S gs a rest N value) :
    ExpSafe P f S gs a rest N (.assignElement p t v index value) := by
  intro offset start ty is h hcode hmarks hoff hlow n c io page book hn hpc hin hnext
  obtain ⟨y, aty, l, i, es, j, text, hl, harray, -, -, hi, hes, hlow', hj, rfl⟩ :=
    Exp.emits_assignElement h
  have hle := hC.valid.tiled.le
  unfold firstFrameOffset at hle
  simp only [Exp.check, Exp.marks, VarUse.checkIndexed_var hl, holds_append, holds_cons,
    hi.length_marks, hj.length_marks, List.length_replicate] at hmarks
  rw [hes.length_eq] at hj
  simp only [holds_append, holds_cons, hes.length_eq] at hcode
  obtain ⟨hcodei, hcodes, hpush, hcodej, hpull, haccess, -⟩ := hcode
  obtain ⟨hmarksi, hmarkss, hmpush, hmarksj, hmpull, hmaccess, -⟩ := hmarks
  apply hindex hi hcodei hmarksi hoff hlow hn hpc hin
  intro m₁ hm₁ c₁ io₁ hpc₁ hin₁ hkept₁ _
  apply hin₁.elementAddress hC.fits hC.valid hC.names hC.ready (v := { v with layout := some l }) hl
    rfl harray hes hpc₁ hcodes hmarkss
  intro m₂ hm₂ c₂ e x hpc₂ hmem₂ hin₂ hdenote hlive helem hac
  rw [← hpc₂] at hpush hmpush
  apply hin₂.push hC.fits hC.valid hpush rfl hlow hoff hmpush
  intro m₃ hm₃ c₃ hpc₃ hread₃ hin₃ hkept₃ _
  apply hvalue hj hcodej hmarksj (by omega) hlow' (by omega) (by omega) hin₃
  intro m₄ hm₄ c₄ io₄ hpc₄ hin₄ hkept₄ _
  -- the address that was put aside is still there
  have hread₄ := hin₃.kept_temporary hC.valid hkept₄ hoff (by omega)
  rw [← hpc₄] at hpull hmpull haccess hmaccess
  have hreload : Reloading P ⟨c₄.machine, io₄, ⟨gs, a :: rest⟩⟩ (page :: book) := by
    have hcur := hC.fits.current_eq hpull
    constructor
    · intro offset hload
      have htext := (Instr.rm.inj (Option.some.inj (hcur.symm.trans hload))).2.2.2.2
      exact absurd htext (by decide)
    · intro u l t t' e _ _ _ hlength
      -- the instruction behind the load of the address is a store
      simp only [hC.fits.toInt_pc hpull, Int.toNat_natCast] at hlength
      cases haccess.symm.trans hlength
  apply hin₄.pull hC.fits hpull (Or.inr rfl) hreload
    (hC.fits.note_eq hpull rfl hmpull rfl) hlow (by omega)
    hmpull
  intro m₅ hm₅
  rw [hread₄, hread₃, hac]
  have hin₅ : InFrame P f (c₄.next.put .ac1 (Int64.ofInt x)) gs a rest := hin₄.of_eq rfl rfl rfl
  apply hin₅.storeElement hC.fits haccess hmaccess rfl hdenote hlive helem
  intro m₆ hm₆
  obtain ⟨hin₆, hkept₆⟩ : InFrame P f { (c₄.next.put .ac1 (Int64.ofInt x)).next with
      mem := c₄.mem.write x c₄.ac } gs a rest ∧ Kept P f a rest (a.base + offset) c₄.mem _ :=
    hin₄.write_element hC.fits hC.valid c₄.ac hlive helem rfl rfl rfl
  rw [← hmem₂] at hkept₁
  apply hnext m₆ (by omega) _ io₄ _ hin₆
    (((hkept₁.trans hkept₃ (Int.le_refl _)).trans hkept₄ (by omega)).trans hkept₆ (Int.le_refl _))
  · intro u hu
    cases hu
  · show c₄.pc + 1 + 1 = _
    simp only [List.length_append, List.length_cons, List.length_nil, hes.length_eq]
    omega

/-! ### Arguments

An argument is a value or an array. An array that is handed on exists as long as the callee runs,
since it belongs to a caller or to all. -/

/-- The arrays that arguments name are stored from the cell `x` downwards. -/
def Stored (P : Scene σ) (mem : Memory) (g : Shadow) (x : Int) (args : List Exp) : Prop :=
  ∀ (i : Nat) e v, args[i]? = some e → e.arrayName = some v →
    mem.read (x - i) = refWord (g.denote P.top v)

/-- The arguments are evaluated and put aside, the first in the cell at `offset`. -/
theorem arguments_safe (hC : Context P ds f S a N) {args : List Exp}
    (hargs : ∀ e ∈ args, ExpSafe P f S gs a rest N e) {offset : Int} {start : Nat} {tys : List Ty}
    {is : List Instr} (h : Exp.ArgumentsEmit S f.linker offset start args tys is)
    (hcode : Holds P.code start is)
    (hmarks : Holds P.marks start (Exp.argumentMarks ((Exp.checkAll S args).map TypedExp.exp)))
    (hoff : offset ≤ f.frameEnd) (hlow : -2 ^ 31 ≤ offset) {n : Nat} {c : Core} {io : σ}
    {given aside : List Word} {operands : List Operand} (hn : n ≤ N) (hpc : c.pc = start)
    (hin : InFrame P f c gs a rest)
    (hnext : ∀ m ≤ n, ∀ (c' : Core) (io' : σ) (values : List Word), c'.pc = start + is.length →
      InFrame P f c' gs a rest → Kept P f a rest (a.base + offset) c.mem c'.mem →
      Stored P c'.mem ⟨gs, a :: rest⟩ (a.base + offset) ((Exp.checkAll S args).map TypedExp.exp) →
      values.length = args.length →
      (∀ i < args.length, c'.mem.read (a.base + offset - i) = values.getD i 0) →
      Safe P m ⟨c'.machine, io', ⟨gs, a :: rest⟩⟩
        (⟨⟨given, values.reverse ++ aside⟩, operands⟩ :: book)) :
    Safe P n ⟨c.machine, io, ⟨gs, a :: rest⟩⟩ (⟨⟨given, aside⟩, operands⟩ :: book) := by
  -- each argument is evaluated below those before it, which stay where they are
  induction args generalizing offset start tys is n c io aside with
  | nil =>
    obtain ⟨-, rfl⟩ := Exp.argumentsEmit_nil h
    refine hnext n (Nat.le_refl n) c io [] hpc hin Kept.refl ?_ rfl fun i hi => absurd hi (by simp)
    intro i e v hi
    simp [Exp.checkAll] at hi
  | cons e others ih =>
    obtain ⟨ety, etys, i, j, -, hlow', hi, hj, rfl⟩ := Exp.argumentsEmit_cons h
    simp only [Exp.checkAll, List.map_cons, Exp.argumentMarks, holds_append, holds_cons,
      hi.length_marks] at hcode hmarks
    obtain ⟨hcodei, hpush, hcodej⟩ := hcode
    obtain ⟨hmarksi, hmpush, hmarksj⟩ := hmarks
    apply hargs e List.mem_cons_self hi hcodei hmarksi (by omega) hlow' hn hpc hin
    intro m₁ hm₁ c₁ io₁ hpc₁ hin₁ hkept₁ hac₁
    rw [← hpc₁] at hpush hmpush
    apply hin₁.putAside hC.fits hC.valid hpush hlow hoff hmpush
    intro m₂ hm₂ c₂ hpc₂ hread₂ hin₂ hkept₂ _
    apply ih (fun e' he' => hargs e' (List.mem_cons_of_mem e he')) hj hcodej hmarksj
      (by omega) hlow'
      (by omega) (by omega) hin₂
    intro m₃ hm₃ c₃ io₃ values hpc₃ hin₃ hkept₃ hstored₃ hlen₃ hvalues₃
    have hread₃ := hin₂.kept_temporary hC.valid hkept₃ hoff (by omega)
    -- the cells of the later arguments, counted from this one
    have hlater : ∀ k : Nat, a.base + offset - (k + 1 : Nat) = a.base + (offset - 1) - k := by
      intro k
      omega
    -- the account has the latest argument first
    have horder : values.reverse ++ c₁.ac :: aside = (c₁.ac :: values).reverse ++ aside := by
      simp
    rw [horder]
    apply hnext m₃ (by omega) c₃ io₃ (c₁.ac :: values) _ hin₃
    · exact ((hkept₁.raise (by omega)).trans hkept₂ (Int.le_refl _)).trans hkept₃ (by omega)
    · intro k e' v hk hv
      cases k with
      | zero =>
        cases hk
        rw [show a.base + offset - (0 : Nat) = a.base + offset by omega, hread₃, hread₂]
        exact hac₁ v hv
      | succ k =>
        have hfound := hstored₃ k e' v (by simpa [Exp.checkAll] using hk) hv
        rw [hlater]
        exact hfound
    · rw [List.length_cons, List.length_cons, hlen₃]
    · intro k hk
      cases k with
      | zero =>
        rw [show a.base + offset - (0 : Nat) = a.base + offset by omega, hread₃, hread₂]
        rfl
      | succ k =>
        rw [hlater, hvalues₃ k (by simpa using hk)]
        rfl
    · rw [hpc₃]
      simp only [List.length_append, List.length_cons]
      omega

/-- The stored arguments are copied to the cells of the parameters; the first `i` already are. -/
theorem copy_safe (hC : Context P ds f S a N) {offset : Int} {start k : Nat}
    (hcode : Holds P.code start (copyArguments offset k))
    (hmarks : Holds P.marks start (List.replicate (2 * k) .body)) (hoff : offset ≤ f.frameEnd)
    (hlow : -2 ^ 31 ≤ offset - (2 * k + 1 : Nat)) {i : Nat} (hi : i ≤ k) {n : Nat} {c : Core}
    {io : σ}
    (hpc : c.pc = start + 2 * i) (hin : InFrame P f c gs a rest)
    (hcopied : ∀ j < i,
      c.mem.read (a.base + (offset - k - 2 - j)) = c.mem.read (a.base + (offset - j)))
    (hnext : ∀ m ≤ n, ∀ c' : Core, c'.pc = start + 2 * k → InFrame P f c' gs a rest →
      Kept P f a rest (a.base + (offset - k)) c.mem c'.mem →
      (∀ j < k, c'.mem.read (a.base + (offset - k - 2 - j)) = c'.mem.read (a.base + (offset - j))) →
      Safe P m ⟨c'.machine, io, ⟨gs, a :: rest⟩⟩ book) :
    Safe P n ⟨c.machine, io, ⟨gs, a :: rest⟩⟩ book := by
  -- by induction on the number of arguments that are still to be copied
  induction hd : k - i generalizing i n c with
  | zero =>
    obtain rfl : i = k := by omega
    exact hnext n (Nat.le_refl n) c hpc hin Kept.refl hcopied
  | succ d ih =>
    have hle := hC.valid.tiled.le
    unfold firstFrameOffset at hle
    have hpair := holds_flatMap (k := 2) (fun _ => rfl) hcode (i := i) (x := i)
      (List.getElem?_range (by omega))
    have hmark : ∀ j < 2 * k, P.marks[start + j]? = some .body := by
      intro j hj
      rw [hmarks j (by simpa using hj), List.getElem_replicate]
    simp only [holds_cons, ← hpc] at hpair
    obtain ⟨hload, hstore, -⟩ := hpair
    have hmload := hmark (2 * i) (by omega)
    have hmstore := hmark (2 * i + 1) (by omega)
    rw [← hpc] at hmload
    rw [← Nat.add_assoc, ← hpc] at hmstore
    apply hin.pull hC.fits hload (Or.inl rfl) (reloading_of_quiet hC.fits hload rfl)
      (hC.fits.note_eq hload rfl hmload rfl) (by omega)
      (by omega) hmload
    intro m₁ hm₁
    have hin₁ : InFrame P f (c.next.put .ac (c.mem.read (a.base + (offset - i)))) gs a rest :=
      hin.of_eq rfl rfl rfl
    apply hin₁.push hC.fits hC.valid hstore rfl (by omega) (by omega) hmstore
    intro m₂ hm₂ c₂ hpc₂ hread₂ hin₂ hkept₂ _
    have hkept : Kept P f a rest (a.base + (offset - k)) c.mem c₂.mem := hkept₂.raise (by omega)
    -- the copy lies below all arguments and all copies so far
    have hsame : ∀ d', offset - k - 2 - i < d' → d' ≤ f.frameEnd →
        c₂.mem.read (a.base + d') = c.mem.read (a.base + d') := by
      intro d' hd' hd''
      exact hin₁.kept_temporary hC.valid hkept₂ hd'' (by omega)
    apply ih (i := i + 1) (by omega) (by show c₂.pc = _; rw [hpc₂]; show c.pc + 1 + 1 = _; omega)
      hin₂
    · intro j hj
      rw [hsame (offset - j) (by omega) (by omega)]
      by_cases hji : j = i
      · subst hji
        rw [hread₂]
        rfl
      · rw [hsame (offset - k - 2 - j) (by omega) (by omega)]
        exact hcopied j (by omega)
    · intro m hm c' hpc' hin' hkept' hdone
      exact hnext m (by omega) c' hpc' hin' (hkept.trans hkept' (Int.le_refl _)) hdone
    · omega

/-! ### Calls

A call opens a frame below everything that the caller has put aside. The callee is safe by
hypothesis, with fewer steps left, and comes back with the frame of the caller as it was. -/

/-- No parameter above the first one is passed. -/
theorem Shadow.lookup_passed_of_lt (g : Shadow) (gp : Int) (arrays : List (Option VarUse))
    {offset x : Int} (hx : offset < x) : (g.passed gp offset arrays).lookup x = none := by
  induction arrays generalizing offset with
  | nil => rfl
  | cons v arrays ih =>
    simp only [Shadow.passed]
    split
    · rw [List.lookup_cons, ih (by omega)]
      have hne : (x == offset) = false := by simpa using (show x ≠ offset by omega)
      rw [hne]
    · exact ih (by omega)

/-- A parameter stands for the array that the argument names. -/
theorem Shadow.lookup_passed (g : Shadow) (gp : Int) (arrays : List (Option VarUse)) (offset : Int)
    {i : Nat} {v : Option VarUse} (hi : arrays[i]? = some v) :
    (g.passed gp offset arrays).lookup (offset - i) = v.bind (g.denote gp) := by
  induction arrays generalizing offset i with
  | nil => simp at hi
  | cons u arrays ih =>
    cases i with
    | zero =>
      cases hi
      rw [show offset - (0 : Nat) = offset by omega]
      simp only [Shadow.passed]
      split
      · rename_i e he
        rw [List.lookup_cons, beq_self_eq_true, he]
      · rename_i he
        rw [he]
        exact lookup_passed_of_lt g gp arrays (by omega)
    | succ i =>
      have hrest := ih (offset - 1) (i := i) (by simpa using hi)
      rw [show offset - (i + 1 : Nat) = offset - 1 - i by omega]
      simp only [Shadow.passed]
      split
      · have hne : (offset - 1 - (i : Int) == offset) = false := by
          simpa using (show offset - 1 - (i : Int) ≠ offset by omega)
        rw [List.lookup_cons, hne]
        exact hrest
      · exact hrest

/-- Arguments are analysed one by one. -/
theorem Exp.checkAll_eq_map (S : ScopeTable) (args : List Exp) :
    Exp.checkAll S args = args.map (Exp.check S) := by
  induction args with
  | nil => rfl
  | cons e rest ih => rw [Exp.checkAll, ih, List.map_cons]

/-- An accepted expression of array type is the name of an array. -/
theorem Exp.arrayName_of_isArray {e : Exp} (hok : (e.check S).errors = [])
    (harray : (e.check S).ty.isArray = true) :
    ∃ v y ty l, (e.check S).exp.arrayName = some v ∧ S.lookup v.name = some (.var y ty l) ∧
      v.layout = some l := by
  cases e with
  | int p n => simp [Exp.check, Ty.int, Ty.scalar] at harray
  | bool p b => simp [Exp.check, Ty.bool, Ty.scalar] at harray
  | nil p => simp [Exp.check, Ty.scalar] at harray
  | unary p t op e =>
    cases op <;> simp [Exp.check, UnaryOp.ty, Ty.int, Ty.bool, Ty.scalar] at harray
  | binary p t op l r =>
    cases op <;>
      simp [Exp.check, BinaryOp.family, BinaryOp.Family.ty, Ty.int, Ty.bool, Ty.scalar] at harray
  -- a name is the only expression whose type can be that of an array
  | var t v =>
    simp only [Exp.check] at hok harray ⊢
    obtain ⟨y, l, hl, hlay⟩ := Exp.check_use hok
    refine ⟨(v.check S).var, y, (v.check S).ty, l, ?_, ?_, hlay⟩
    · simp [Exp.arrayName, harray]
    · have hname : (v.check S).var.name = v.name := by
        unfold VarUse.check
        split <;> rfl
      rw [hname, hl]
  | element t v i =>
    simp only [Exp.check, List.append_eq_nil_iff] at hok harray
    obtain ⟨_, aty, _, -, -, -, hty, -⟩ := Exp.check_indexed hok.2
    rw [hty] at harray
    cases harray
  | assign p t v e =>
    simp only [Exp.check, List.append_eq_nil_iff] at hok harray
    rw [(Exp.assignmentErrors_eq_nil hok.2).2.1] at harray
    cases harray
  | assignElement p t v i e =>
    simp only [Exp.check, List.append_eq_nil_iff] at hok harray
    rw [(Exp.assignmentErrors_eq_nil hok.2).2.1] at harray
    cases harray
  | call p t callee args =>
    simp only [Exp.check, List.append_eq_nil_iff] at hok harray
    obtain ⟨_, result, _, _, -, hty, -⟩ := Exp.checkCall_eq_nil hok.2
    rw [hty] at harray
    cases harray

/-- The arguments of an accepted call have the types of the parameters of the function. -/
theorem Context.signature (hC : Context P ds f S a N) {callee name : String} {result : BaseType}
    {params : List Param} {d : Bool} {tys : List Ty}
    (hl : S.lookup callee = some (.function name result params d))
    (hlen : params.length = tys.length)
    (htys : if name = "output" then ∀ t ∈ tys, t = .int else tys = params.map Param.ty) :
    P.scope.Signature callee result tys := by
  obtain ⟨rfl, hsig⟩ := hC.names.functions _ _ _ _ _ hl
  exact hsig.of_arguments hC.fits.output hlen htys

/-- The stored arguments are passed on as the parameters of the new frame. -/
theorem InFrame.passes (hC : Context P ds f S a N) {c : Core} (hin : InFrame P f c gs a rest)
    {args : List Exp} {offset : Int} {start : Nat} {tys : List Ty} {is : List Instr}
    (h : Exp.ArgumentsEmit S f.linker offset start args tys is)
    (hstored : Stored P c.mem ⟨gs, a :: rest⟩ (a.base + offset)
      ((Exp.checkAll S args).map TypedExp.exp))
    (hcopied : ∀ j < args.length, c.mem.read (a.base + (offset - args.length - 2 - j))
      = c.mem.read (a.base + (offset - j))) :
    Passes c.mem gs (a :: rest) (a.base + (offset - args.length)) tys
      ((⟨gs, a :: rest⟩ : Shadow).passed P.top firstParamOffset
        (((Exp.checkAll S args).map TypedExp.exp).map Exp.arrayName)) := by
  intro i ty hi harray
  have hok := h.accepted
  rw [← h.tys_eq, Exp.checkAll_eq_map, List.getElem?_map, List.getElem?_map, Option.map_map] at hi
  obtain ⟨e, he, rfl⟩ := Option.map_eq_some_iff.mp hi
  rw [Exp.checkAll_eq_map, List.flatMap_map, List.flatMap_eq_nil_iff] at hok
  obtain ⟨v, y, ty, l, hname, hl, hv⟩ :=
    Exp.arrayName_of_isArray (hok e (List.mem_of_getElem? he)) harray
  have hexp : ((Exp.checkAll S args).map TypedExp.exp)[i]? = some (e.check S).exp := by
    rw [Exp.checkAll_eq_map, List.getElem?_map, List.getElem?_map, he]
    rfl
  -- the frame of the callee denotes its parameter `i` by the array that the argument names
  have hpassed := Shadow.lookup_passed ⟨gs, a :: rest⟩ P.top
    (((Exp.checkAll S args).map TypedExp.exp).map Exp.arrayName) firstParamOffset (i := i)
    (v := some v) (by rw [List.getElem?_map, hexp, Option.map_some, hname])
  rw [show firstParamOffset - (i : Int) = -2 - (i : Int) from rfl, Option.bind_some] at hpassed
  have hlt : i < args.length := (List.getElem?_eq_some_iff.mp he).1
  rw [hpassed]
  constructor
  -- the base was copied from the cell of the argument to that of the parameter
  · rw [show a.base + (offset - args.length) - 2 - i =
      a.base + (offset - args.length - 2 - i) by omega, hcopied i hlt, show a.base + (offset - i) =
        a.base + offset - i by omega]
    exact hstored i _ v hexp hname
  · intro x hx
    exact hin.denote_live hC.fits hC.names hl hv hx

/-- Values that are stored from the cell at `offset` downwards, and copied from there to the
parameters of the frame below them. -/
theorem gives_of_copied {mem : Memory} {offset : Int} {k : Nat} {tys : List Ty} {values : List Word}
    (htys : tys.length = k) (hcount : values.length = k)
    (hvalues : ∀ i < k, mem.read (a.base + (offset - i)) = values.getD i 0)
    (hcopied : ∀ i < k,
      mem.read (a.base + (offset - k - 2 - i)) = mem.read (a.base + (offset - i))) :
    Gives mem (a :: rest) (a.base + (offset - k)) tys values := by
  refine ⟨fun _ => hcount.trans htys.symm, fun hnil => (List.cons_ne_nil _ _ hnil).elim, ?_⟩
  intro i hi
  rw [htys] at hi
  rw [show a.base + (offset - k) - 2 - i = a.base + (offset - k - 2 - i) by omega, hcopied i hi,
    hvalues i hi]

/-- A call is given the values that were put aside for it, and the others remain. -/
theorem Scene.note_call {m : Machine} {arrays : List (Option VarUse)}
    (hm : m.mark P.marks = some (.call arrays)) {values : List Word}
    (hcount : arrays.length = values.length) :
    P.note m (⟨⟨page.account.given, values.reverse ++ page.account.aside⟩, page.operands⟩ :: book)
      = ⟨⟨values, []⟩, []⟩ :: page :: book := by
  have htake : arrays.length = values.reverse.length := by
    rw [List.length_reverse, hcount]
  simp only [Scene.note, Book.step, hm, htake, List.take_left', List.drop_left',
    List.reverse_reverse]

/-- A frame below the temporary cells of the running function. -/
theorem InFrame.room (hf : f.Valid ds P.scope P.pool) {c : Core} (h : InFrame P f c gs a rest)
    {d : Int} (hd : d ≤ f.frameEnd) : Room P (a :: rest) (a.base + d) := by
  have hbase := h.base_range
  have hle := hf.tiled.le
  unfold firstFrameOffset at hle
  obtain ⟨-, -, hbelow, harrays, habove, -⟩ := h.sound.framed
  refine ⟨by omega, ?_, ?_, fun hnil => by cases hnil⟩
  · intro b hb
    rcases List.mem_cons.mp hb with rfl | hb
    · omega
    · have := hbelow b hb
      omega
  · intro e he
    rw [List.flatMap_cons] at he
    rcases List.mem_append.mp he with he | he
    · obtain ⟨v, hv, -, hv'⟩ := h.arrays e he
      have := (hf.tiled.within v hv).1
      omega
    · have := habove e he
      omega

/-- The arguments one by one, each of them put aside below the one before, and then the call. -/
theorem ExpSafe.call (hC : Context P ds f S a N) {p : Pos} {t : Option Ty} {callee : String}
    {args : List Exp} (hargs : ∀ e ∈ args, ExpSafe P f S gs a rest N e) :
    ExpSafe P f S gs a rest N (.call p t callee args) := by
  intro offset start ty is h hcode hmarks hoff hlow n c io page book hn hpc hin hnext
  obtain ⟨name, result, params, d, tys, as, entry, jump, hl, -, harity, htys, has, hlow',
    hentry, hjump, rfl⟩ := Exp.emits_call h
  have hsig := hC.signature hl harity htys
  have hpool := hC.valid.linked _ (Linker.mem_of_entry hC.valid.strict hentry)
  have hle := hC.valid.tiled.le
  unfold firstFrameOffset at hle
  have hlengths : ((Exp.checkAll S args).map TypedExp.exp).length = args.length := by
    rw [List.length_map, Exp.length_checkAll]
  have hlen := hC.fits.code_lt
  have hbound := hcode.bound (by simp [callSequence])
  simp only [List.length_append, length_copyArguments, callSequence, List.length_cons] at hbound
  obtain rfl := Instr.relative_eq_ok hjump (by omega) (hC.fits.pool_lt _ hpool)
  have hlenmarks : (Exp.argumentMarks ((Exp.checkAll S args).map TypedExp.exp)).length =
      as.length := by
    rw [Exp.length_argumentMarks fun e _ => e.length_marks,
      Exp.length_argumentCode (fun e _ _ _ _ => Exp.length_code) has.code_eq]
  simp only [Exp.check, Exp.marks, holds_append, hlenmarks, hlengths,
    List.length_replicate] at hmarks
  simp only [holds_append, length_copyArguments] at hcode
  obtain ⟨hcodea, hcodec, hcodes⟩ := hcode
  obtain ⟨hmarksa, hmarksc, hmarkss⟩ := hmarks
  apply arguments_safe hC hargs has hcodea hmarksa hoff hlow hn hpc hin
  intro m₁ hm₁ c₁ io₁ values hpc₁ hin₁ hkept₁ hstored₁ hcount hvalues₁
  apply copy_safe hC hcodec hmarksc hoff hlow' (Nat.zero_le _) (by omega) hin₁
    (fun j hj => absurd hj (Nat.not_lt_zero j))
  intro m₂ hm₂ c₂ hpc₂ hin₂ hkept₂ hcopied₂
  -- the copies lie below the cells where the arguments were put aside
  have hsame : ∀ i < args.length,
      c₂.mem.read (a.base + (offset - i)) = c₁.mem.read (a.base + offset - i) := by
    intro i hi
    rw [hin₁.kept_temporary hC.valid hkept₂ (by omega) (by omega),
      show a.base + (offset - i) = a.base + offset - i by omega]
  have hstored₂ : Stored P c₂.mem ⟨gs, a :: rest⟩ (a.base + offset)
      ((Exp.checkAll S args).map TypedExp.exp) := by
    intro i e v hi hv
    have hlt : i < args.length := by
      rw [← hlengths]
      exact (List.getElem?_eq_some_iff.mp hi).1
    rw [show a.base + offset - i = a.base + (offset - i) by omega, hsame i hlt]
    exact hstored₁ i e v hi hv
  have hpasses := hin₂.passes hC has hstored₂ hcopied₂
  have htypes : tys.length = args.length := by
    rw [← has.tys_eq, List.length_map, Exp.length_checkAll]
  have hgives : Gives c₂.mem (a :: rest) (a.base + (offset - args.length)) tys values :=
    gives_of_copied htypes hcount (fun i hi => (hsame i hi).trans (hvalues₁ i hi)) hcopied₂
  have hnames : (((Exp.checkAll S args).map TypedExp.exp).map Exp.arrayName).length
      = values.length := by
    rw [List.length_map, hlengths, hcount]
  have hroom : Room P (a :: rest) (a.base + (offset - args.length)) := hin₂.room hC.valid (by omega)
  have hcaller : Caller P c₂ gs (a :: rest) :=
    ⟨hin₂.sane, hin₂.gp_eq, hin₂.fp_eq, hin₂.sound, hin₂.globals⟩
  apply callSequence_safe hC.fits hC.calls (by omega) hpool (hC.fits.pool_lt _ hpool) hsig hcaller
    (show offset - args.length ≤ 0 by omega) (by omega) (by rw [hin₂.fp_eq]; omega) hroom hpc₂
    (by omega) hcodes hmarkss (Or.inl ⟨rfl, List.cons_ne_nil _ _⟩) (Or.inl rfl) hpasses hgives
    (fun m hm => Scene.note_call hm hnames)
  intro m₃ hm₃ c₃ io₃ hpc₃ hcaller₃ hread₃
  have hkept₃ : Kept P f a rest (a.base + offset) c₂.mem c₃.mem := by
    intro x hx hbase hown helem
    apply hread₃ x (by omega) hbase
    intro e he hx'
    rw [List.flatMap_cons] at he
    rcases List.mem_append.mp he with he | he
    · obtain ⟨v, hv, hshape, hv'⟩ := hin₂.arrays e he
      have hlow := hx'.1
      have hhigh := hx'.2
      refine hown ⟨v, hv, ?_, by omega, ?_⟩
      · rw [hshape]
        exact Shape.noConfusion
      · simp only [Slot.top, hshape, Shape.elements]
        omega
    · exact helem e he hx'
  have hin₃ : InFrame P f c₃ gs a rest :=
    hin₂.of_kept hC.valid hcaller₃.sane hcaller₃.gp_eq hcaller₃.fp_eq hcaller₃.sound
      (show a.base + offset ≤ a.base + f.frameEnd by omega) hkept₃
  apply hnext m₃ (by omega) c₃ io₃ _ hin₃
  · exact (hkept₁.trans hkept₂ (by omega)).trans hkept₃ (Int.le_refl _)
  · intro v hv
    cases hv
  · rw [hpc₃]
    simp only [List.length_append, length_copyArguments, callSequence, List.length_cons,
      List.length_nil]
    omega

/-- Every accepted expression is safe. -/
theorem exp_safe (hC : Context P ds f S a N) (e : Exp) : ExpSafe P f S gs a rest N e := by
  induction e using Exp.induction with
  | int p n => exact ExpSafe.int hC p n
  | bool p b => exact ExpSafe.bool hC p b
  | nil p => exact ExpSafe.nil p
  | unary p t op e ih => exact ExpSafe.unary hC ih
  | binary p t op l r ihl ihr => exact ExpSafe.binary hC ihl ihr
  | var t v => exact ExpSafe.var hC t v
  | element t v i ih => exact ExpSafe.element hC ih
  | assign p t v e ih => exact ExpSafe.assign hC ih
  | assignElement p t v i e ihi ihe => exact ExpSafe.assignElement hC ihi ihe
  | call p t callee args ih => exact ExpSafe.call hC ih

end Expressions

end MiniC
