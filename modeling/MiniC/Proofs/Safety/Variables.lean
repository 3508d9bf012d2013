import MiniC.Proofs.Safety.Instructions

/-!
# Safe accesses to variables

A name in the scopes of a function stands for cells of its frame or for global cells. Loading the
name of an array gives the address of the array that the watcher takes the name to stand for, and
an index that passes both checks reaches one of its elements.

* `InFrame.load`, `InFrame.store`: the value of a variable
* `InFrame.elementAddress`: the code that checks an index
* `InFrame.loadElement`, `InFrame.storeElement`: the accesses behind the check
-/

namespace MiniC

variable {σ : Type} {P : Scene σ} {book : Book}

section Frame

variable {ds : List Decl} {f : CompiledFunction} {c : Core} {io : σ} {gs : List Extent}
  {a : Activation} {rest : List Activation} {n : Nat}

/-! ### Stores

A cell of the frame below all variables may be stored to. What the function has kept for its
callers, and its variables, stay as they are. -/

/-- A store to a storable cell that holds no reference keeps the invariant. -/
theorem InFrame.write (hP : P.Fits) (h : InFrame P f c gs a rest) {x : Int} {w : Word}
    (hpos : 0 < x)
    (hx : Storable ⟨gs, a :: rest⟩ x)
    (href : ∀ v ∈ f.slots, v.shape = .reference → x ≠ a.base + v.offset) {c' : Core}
    (hmem : c'.mem = c.mem.write x w) (hgp : c'.gp = c.gp) (hfp : c'.fp = c.fp) :
    InFrame P f c' gs a rest := by
  obtain ⟨⟨h1, h2, h3, h4⟩, hgp', hfp', hsound, hglobals, harrays, hrefs⟩ := h
  refine ⟨⟨?_, ?_, ?_, ?_⟩, hgp.trans hgp', hfp.trans hfp', ?_, hglobals, harrays, ?_⟩
  · rw [hfp]; exact h1
  · rw [hfp, hgp]; exact h2
  · rw [hgp]; exact h3
  · rw [hmem, hgp, Memory.size_write]; exact h4
  · rw [hmem]
    exact hsound.write hP.globalsEnd_le hpos hx w
  · intro v hv hshape
    rw [hmem, Memory.read_write_of_ne hpos (href v hv hshape)]
    exact hrefs v hv hshape

/-- Which cells may be stored to. -/
theorem Kept.write {floor x : Int} {mem : Memory} (hpos : 0 < x) (w : Word)
    (h : x ≤ floor ∨ P.base < x ∨ f.Owns a.base x ∨
      ∃ e ∈ rest.flatMap Activation.arrays, e.Element x) :
    Kept P f a rest floor mem (mem.write x w) := by
  intro y hy hbase hown helem
  apply Memory.read_write_of_ne hpos
  rintro rfl
  rcases h with h | h | h | ⟨e, he, h⟩
  · omega
  · omega
  · exact hown h
  · exact helem e he h

/-- A temporary cell below the variables of the function. -/
theorem InFrame.storable_low (hf : f.Valid ds P.scope P.pool) (h : InFrame P f c gs a rest)
    {d : Int}
    (hd : d ≤ f.frameEnd) : Storable ⟨gs, a :: rest⟩ (a.base + d) := by
  have hle := hf.tiled.le
  unfold firstFrameOffset at hle
  apply h.storable_frame (by omega)
  intro e he
  obtain ⟨v, hv, -, hbase⟩ := h.arrays e he
  have := (hf.tiled.within v hv).1
  omega

theorem CompiledFunction.Valid.ne_reference (hf : f.Valid ds P.scope P.pool) {d : Int}
    (hd : d ≤ f.frameEnd) (base : Int) :
    ∀ v ∈ f.slots, v.shape = .reference → base + d ≠ base + v.offset := by
  intro v hv _
  have := (hf.tiled.within v hv).1
  omega

/-- The accumulator is stored in a temporary cell, of which the book takes note or not. -/
theorem InFrame.put (hP : P.Fits) (hf : f.Valid ds P.scope P.pool) (h : InFrame P f c gs a rest)
    {d : Int} {t : String} {book' : Book} (hi : P.code[c.pc]? = some (.rm .st .ac d .fp t))
    (hnote : P.note c.machine book = book') (hd : -2 ^ 31 ≤ d) (hd' : d ≤ f.frameEnd)
    {mk : Mark} (hmk : P.marks[c.pc]? = some mk) (hbody : mk = .body ∨ mk = .aside)
    (hnext : 0 < a.base + d → ∀ m < n, ∀ c', c'.pc = c.pc + 1 → c'.mem.read (a.base + d) = c.ac →
      InFrame P f c' gs a rest → Kept P f a rest (a.base + d) c.mem c'.mem → c'.ac = c.ac →
      Safe P m ⟨c'.machine, io, ⟨gs, a :: rest⟩⟩ book') :
    Safe P n ⟨c.machine, io, ⟨gs, a :: rest⟩⟩ book := by
  have hle := hf.tiled.le
  unfold firstFrameOffset at hle
  have hbase : d + c.origin false = a.base + d := by
    show d + c.fp = a.base + d
    rw [h.fp_eq]
    omega
  have hstorable := h.storable_low hf hd'
  apply h.store_base hP (g := false) hi hnote hd (by omega) hmk hbody
  · rw [hbase]
    exact fun _ => hstorable
  · rw [hbase]
    intro hpos m hm
    apply hnext hpos m hm
    · rfl
    · exact Memory.read_write_self _ _ _
    · exact h.write hP hpos hstorable (hf.ne_reference hd' a.base) rfl rfl rfl
    · exact Kept.write hpos _ (Or.inl (Int.le_refl _))
    · rfl

/-- A temporary value is stored. -/
theorem InFrame.push (hP : P.Fits) (hf : f.Valid ds P.scope P.pool) (h : InFrame P f c gs a rest)
    {d : Int} {t : String} (hi : P.code[c.pc]? = some (.rm .st .ac d .fp t))
    (hnoted : Instr.noted (.rm .st .ac d .fp t) = false) (hd : -2 ^ 31 ≤ d) (hd' : d ≤ f.frameEnd)
    (hmk : P.marks[c.pc]? = some .body)
    (hnext : ∀ m < n, ∀ c', c'.pc = c.pc + 1 → c'.mem.read (a.base + d) = c.ac →
      InFrame P f c' gs a rest → Kept P f a rest (a.base + d) c.mem c'.mem → c'.ac = c.ac →
      Safe P m ⟨c'.machine, io, ⟨gs, a :: rest⟩⟩ book) :
    Safe P n ⟨c.machine, io, ⟨gs, a :: rest⟩⟩ book := by
  exact h.put hP hf hi (hP.note_eq hi hnoted hmk rfl) hd hd' hmk (Or.inl rfl) fun _ => hnext

/-- The value of an argument is put aside. -/
theorem InFrame.putAside (hP : P.Fits) (hf : f.Valid ds P.scope P.pool)
    (h : InFrame P f c gs a rest)
    {d : Int} {given aside : List Word} {operands : List Operand}
    (hi : P.code[c.pc]? = some (.rm .st .ac d .fp "call: store argument")) (hd : -2 ^ 31 ≤ d)
    (hd' : d ≤ f.frameEnd) (hmk : P.marks[c.pc]? = some .aside)
    (hnext : ∀ m < n, ∀ c', c'.pc = c.pc + 1 → c'.mem.read (a.base + d) = c.ac →
      InFrame P f c' gs a rest → Kept P f a rest (a.base + d) c.mem c'.mem → c'.ac = c.ac →
      Safe P m ⟨c'.machine, io, ⟨gs, a :: rest⟩⟩ (⟨⟨given, c.ac :: aside⟩, operands⟩ :: book)) :
    Safe P n ⟨c.machine, io, ⟨gs, a :: rest⟩⟩ (⟨⟨given, aside⟩, operands⟩ :: book) := by
  exact h.put hP hf hi (hP.note_aside hi hmk _) hd hd' hmk (Or.inr rfl) fun _ => hnext

/-- A left operand is put aside. -/
theorem InFrame.pushLeft (hP : P.Fits) (hf : f.Valid ds P.scope P.pool)
    (h : InFrame P f c gs a rest)
    {d : Int} {page : Page} (hi : P.code[c.pc]? = some (.rm .st .ac d .fp "op: push left"))
    (hd : -2 ^ 31 ≤ d) (hd' : d ≤ f.frameEnd) (hmk : P.marks[c.pc]? = some .body)
    (hnext : 0 < a.base + d → ∀ m < n, ∀ c', c'.pc = c.pc + 1 → c'.mem.read (a.base + d) = c.ac →
      InFrame P f c' gs a rest → Kept P f a rest (a.base + d) c.mem c'.mem → c'.ac = c.ac →
      Safe P m ⟨c'.machine, io, ⟨gs, a :: rest⟩⟩
        (⟨page.account, ⟨c.pc, c.ac⟩ :: page.operands⟩ :: book)) :
    Safe P n ⟨c.machine, io, ⟨gs, a :: rest⟩⟩ (page :: book) := by
  exact h.put hP hf hi (hP.note_body hi hmk page) hd hd' hmk (Or.inl rfl) hnext

/-- A temporary cell is loaded. -/
theorem InFrame.pull (hP : P.Fits) (h : InFrame P f c gs a rest) {r : Reg} {d : Int} {t : String}
    (hi : P.code[c.pc]? = some (.rm .ld r d .fp t)) (hr : r = .ac ∨ r = .ac1)
    (hreload : Reloading P ⟨c.machine, io, ⟨gs, a :: rest⟩⟩ book) {book' : Book}
    (hnote : P.note c.machine book = book') (hd : -2 ^ 31 ≤ d) (hd' : d ≤ 0)
    (hmk : P.marks[c.pc]? = some .body)
    (hnext : ∀ m < n,
      Safe P m ⟨(c.next.put r (c.mem.read (a.base + d))).machine, io, ⟨gs, a :: rest⟩⟩ book') :
    Safe P n ⟨c.machine, io, ⟨gs, a :: rest⟩⟩ book := by
  have hbase : d + c.origin false = a.base + d := by
    show d + c.fp = a.base + d
    rw [h.fp_eq]
    omega
  apply h.load_base hP (g := false) hi hr hreload hnote hd hd' hmk
  rw [hbase]
  exact fun _ => hnext

/-- The left operand that was put aside last is loaded from where it was put. -/
theorem InFrame.pullLeft (hP : P.Fits) (h : InFrame P f c gs a rest) {d : Int} {page : Page}
    {o : Operand} (hi : P.code[c.pc]? = some (.rm .ld .ac1 d .fp "op: load left"))
    (hspans : Spans P.code d o.site c.pc) (hpos : 0 < a.base + d)
    (hread : c.mem.read (a.base + d) = o.value) (hd : -2 ^ 31 ≤ d) (hd' : d ≤ 0)
    {t : String} {op : Opcode} {r s q : Reg} (hafter : P.code[c.pc + 1]? = some (.ro op r s q t))
    (hmk : P.marks[c.pc]? = some .body)
    (hnext : ∀ m < n,
      Safe P m ⟨{ c.next with ac1 := o.value }.machine, io, ⟨gs, a :: rest⟩⟩ (page :: book)) :
    Safe P n ⟨c.machine, io, ⟨gs, a :: rest⟩⟩ (⟨page.account, o :: page.operands⟩ :: book) := by
  have hbase : d + c.fp = a.base + d := by
    rw [h.fp_eq]
    omega
  have hreload : Reloading P ⟨c.machine, io, ⟨gs, a :: rest⟩⟩
      (⟨page.account, o :: page.operands⟩ :: book) := by
    constructor
    · intro offset hload
      cases (hP.current_eq hi).symm.trans hload
      exact ⟨c, page.account, o, page.operands, book, rfl, hP.toInt_pc hi, rfl, h.sane, hd, hd',
        by rw [hbase]; exact hpos, by rw [hbase, hread], hspans⟩
    · intro v l t t' e _ _ _ hlength
      -- the instruction behind the load of an operand is no load
      simp only [hP.toInt_pc hi, Int.toNat_natCast] at hlength
      cases hafter.symm.trans hlength
  apply h.pull hP hi (Or.inr rfl) hreload (hP.note_body hi hmk _) hd hd' hmk
  rw [hread]
  exact hnext

/-! ### Variables

A name is looked up in the scopes of the analysis, which give it a slot. The three kinds of storage
differ in what is loaded for it. -/

/-- The arrays that the function declares and that are in scope exist. -/
def Ready (S : ScopeTable) (a : Activation) : Prop :=
  ∀ x n ty l, S.lookup x = some (.var n ty l) → l.level = frameLevel → l.storage = .array →
    ∃ e ∈ a.arrays, e.base = a.base + l.offset

/-- A name in scope stands for a slot of the function, or for a global one. -/
theorem Scoped.slot (hP : P.Fits) {S : ScopeTable} (hS : Scoped P.scope f.slots S) {x y : String}
    {ty : Ty} {l : Layout} (hl : S.lookup x = some (.var y ty l)) :
    (l.level = globalLevel ∧ ∃ v ∈ P.globals, v.Holds ty l) ∨
      (l.level = frameLevel ∧ ∃ v ∈ f.slots, v.Holds ty l) := by
  rcases hS.placed x y ty l hl with hl | hl
  · exact Or.inl (hP.scope.placed x y ty l hl)
  · exact Or.inr hl

/-- The offset of a variable fits its field, and lies below its base. -/
theorem Scoped.offset_range (hP : P.Fits) (hf : f.Valid ds P.scope P.pool) {S : ScopeTable}
    (hS : Scoped P.scope f.slots S) {x y : String} {ty : Ty} {l : Layout}
    (hl : S.lookup x = some (.var y ty l)) : -2 ^ 31 ≤ l.offset ∧ l.offset ≤ 0 := by
  rcases hS.slot hP hl with ⟨-, v, hv, hholds⟩ | ⟨-, v, hv, hholds⟩
  · have hwithin := hP.tiled.within v hv
    have hfits := hP.tiled.fits (by decide)
    have htop := v.offset_le_top
    unfold minOffset at hfits
    rw [hholds.offset_eq]
    omega
  · have hwithin := hf.tiled.within v hv
    have hfits := hf.tiled.fits (by decide)
    have htop := v.offset_le_top
    unfold minOffset at hfits
    unfold firstFrameOffset at hwithin
    rw [hholds.offset_eq]
    omega

theorem Slot.Holds.reference {s : Slot} {ty : Ty} {l : Layout} (h : s.Holds ty l)
    (hl : l.storage = .arrayRef) : s.shape = .reference := by
  have hstorage := h.storage_eq.symm.trans hl
  cases hshape : s.shape with
  | scalar => simp [hshape, Shape.storage] at hstorage
  | array size => simp [hshape, Shape.storage] at hstorage
  | reference => rfl

theorem Slot.Holds.array {s : Slot} {ty : Ty} {l : Layout} (h : s.Holds ty l)
    (hl : l.storage = .array) : ∃ size, s.shape = .array size := by
  have hstorage := h.storage_eq.symm.trans hl
  cases hshape : s.shape with
  | scalar => simp [hshape, Shape.storage] at hstorage
  | array size => exact ⟨size, rfl⟩
  | reference => simp [hshape, Shape.storage] at hstorage

theorem Slot.Holds.scalar {s : Slot} {ty : Ty} {l : Layout} (h : s.Holds ty l)
    (hty : ty.isArray = false) : s.shape = .scalar := by
  have harray := h.isArray_eq.symm.trans hty
  cases hshape : s.shape with
  | scalar => rfl
  | array size => simp [hshape, Shape.isArray] at harray
  | reference => simp [hshape, Shape.isArray] at harray

/-- What has an array type is no single value. -/
theorem Scoped.storage_ne_scalar (hP : P.Fits) {S : ScopeTable} (hS : Scoped P.scope f.slots S)
    {x y : String} {ty : Ty} {l : Layout} (hl : S.lookup x = some (.var y ty l))
    (harray : ty.isArray = true) : l.storage ≠ .scalar := by
  have hholds : ∃ s : Slot, s.Holds ty l := by
    rcases hS.slot hP hl with ⟨-, s, -, hholds⟩ | ⟨-, s, -, hholds⟩
    · exact ⟨s, hholds⟩
    · exact ⟨s, hholds⟩
  obtain ⟨s, hholds⟩ := hholds
  intro hstorage
  rw [hholds.isArray_eq] at harray
  rw [hholds.storage_eq] at hstorage
  cases hshape : s.shape <;> simp [hshape, Shape.storage, Shape.isArray] at hstorage harray

/-- The array that a name stands for exists. -/
theorem InFrame.denote_live (hP : P.Fits) (h : InFrame P f c gs a rest) {S : ScopeTable}
    (hS : Scoped P.scope f.slots S) {v : VarUse} {y : String} {ty : Ty} {l : Layout}
    (hl : S.lookup v.name = some (.var y ty l)) (hv : v.layout = some l) {e : Extent}
    (he : (⟨gs, a :: rest⟩ : Shadow).denote P.top v = some e) :
    e ∈ (⟨gs, a :: rest⟩ : Shadow).live := by
  simp only [Shadow.denote, hv] at he
  simp only [Shadow.live, List.flatMap_cons, List.mem_append]
  cases hstorage : l.storage with
  | scalar => simp [hstorage] at he
  | array =>
    simp only [hstorage] at he
    split at he
    · exact Or.inl (List.mem_of_find?_eq_some he)
    · exact Or.inr (Or.inl (List.mem_of_find?_eq_some he))
  | arrayRef =>
    simp only [hstorage] at he
    rcases hS.slot hP hl with ⟨-, s, hs, hholds⟩ | ⟨-, s, hs, hholds⟩
    · exact absurd (hholds.reference hstorage) (hP.plain s hs)
    · rw [hholds.offset_eq] at he
      rcases List.mem_append.mp ((h.references s hs (hholds.reference hstorage)).2 e
        he) with he | he
      · exact Or.inl he
      · exact Or.inr (Or.inr he)

theorem find?_base {arrays : List Extent} {e : Extent} {base : Int} (he : e ∈ arrays)
    (hbase : e.base = base) :
    ∃ e', arrays.find? (fun e => e.base = base) = some e' ∧ e'.base = base := by
  have hsome : (arrays.find? (fun e => e.base = base)).isSome = true :=
    List.find?_isSome.mpr ⟨e, he, decide_eq_true hbase⟩
  obtain ⟨e', he'⟩ := Option.isSome_iff_exists.mp hsome
  have hfound := List.find?_some he'
  exact ⟨e', he', of_decide_eq_true hfound⟩

/-- An array that lies in place is found where its name says. -/
theorem InFrame.denote_array (hP : P.Fits) (h : InFrame P f c gs a rest) {S : ScopeTable}
    (hS : Scoped P.scope f.slots S) (hready : Ready S a) {v : VarUse} {y : String} {ty : Ty}
    {l : Layout} (hl : S.lookup v.name = some (.var y ty l)) (hv : v.layout = some l)
    (hstorage : l.storage = .array) :
    ∃ e, (⟨gs, a :: rest⟩ : Shadow).denote P.top v = some e ∧
      e.base = l.offset + c.origin l.isGlobal := by
  simp only [Shadow.denote, hv, hstorage, Core.origin]
  rcases hS.slot hP hl with ⟨hlevel, s, hs, hholds⟩ | ⟨hlevel, -⟩
  · have hglobal : l.isGlobal = true := by rw [Layout.isGlobal, hlevel]; rfl
    obtain ⟨size, hshape⟩ := hholds.array hstorage
    have hsome := h.globals.exist s hs size hshape
    simp only [hglobal, if_true, h.gp_eq]
    obtain ⟨e, he, hbase⟩ := find?_base hsome (show P.top + s.offset = P.top + l.offset by
      rw [hholds.offset_eq])
    exact ⟨e, he, by omega⟩
  · have hglobal : l.isGlobal = false := by rw [Layout.isGlobal, hlevel]; rfl
    obtain ⟨e₀, he₀, hbase₀⟩ := hready _ _ _ _ hl hlevel hstorage
    simp only [hglobal, Bool.false_eq_true, if_false, h.fp_eq]
    obtain ⟨e, he, hbase⟩ := find?_base he₀ hbase₀
    exact ⟨e, he, by omega⟩

/-- The cell of a parameter holds the word of the array that the name stands for. -/
theorem InFrame.denote_reference (hP : P.Fits) (h : InFrame P f c gs a rest) {S : ScopeTable}
    (hS : Scoped P.scope f.slots S) {v : VarUse} {y : String} {ty : Ty} {l : Layout}
    (hl : S.lookup v.name = some (.var y ty l)) (hv : v.layout = some l)
    (hstorage : l.storage = .arrayRef) :
    c.mem.read (l.offset + c.origin l.isGlobal)
      = refWord ((⟨gs, a :: rest⟩ : Shadow).denote P.top v) := by
  rcases hS.slot hP hl with ⟨-, s, hs, hholds⟩ | ⟨hlevel, s, hs, hholds⟩
  · exact absurd (hholds.reference hstorage) (hP.plain s hs)
  · have hglobal : l.isGlobal = false := by rw [Layout.isGlobal, hlevel]; rfl
    have hread := (h.references s hs (hholds.reference hstorage)).1
    simp only [Shadow.denote, hv, hstorage, Core.origin, hglobal, Bool.false_eq_true, if_false,
      h.fp_eq, hholds.offset_eq]
    rw [Int.add_comm, hread]

/-- The storage of a name leads to the array that the name stands for. -/
theorem InFrame.addresses (hP : P.Fits) (hf : f.Valid ds P.scope P.pool)
    (h : InFrame P f c gs a rest) {S : ScopeTable} (hS : Scoped P.scope f.slots S)
    (hready : Ready S a) {v : VarUse} {y : String} {ty : Ty} {l : Layout}
    (hl : S.lookup v.name = some (.var y ty l)) (hv : v.layout = some l) {e : Extent}
    (he : (⟨gs, a :: rest⟩ : Shadow).denote P.top v = some e) : Addresses c l e := by
  have hlive := h.denote_live hP hS hl hv he
  obtain ⟨hpos, hend⟩ := h.sound.range hP.globalsEnd_le hlive
  obtain ⟨hlow, hhigh⟩ := hS.offset_range hP hf hl
  refine ⟨h.sane, hlow, hhigh, h.sound.zero, hpos, by rw [h.gp_eq]; exact hend,
    h.sound.lengths e hlive, ?_, ?_⟩
  · intro hstorage
    obtain ⟨e', he', hbase⟩ := h.denote_array hP hS hready hl hv hstorage
    rw [he, Option.some.injEq] at he'
    rw [he', hbase]
  · intro hstorage
    rw [h.denote_reference hP hS hl hv hstorage, he]
    rfl

/-- The base register tells on which side of the frames the storage is. -/
theorem Layout.isGlobal_of_base {l l' : Layout} (h : l.base = l'.base) :
    l.isGlobal = l'.isGlobal := by
  unfold Layout.base at h
  cases hg : l.isGlobal <;> cases hg' : l'.isGlobal <;> rw [hg, hg'] at h
  · exact absurd h (by decide)
  · exact absurd h (by decide)

/-- The operation tells an array in place from a reference. -/
theorem Storage.eq_of_loadOp {s s' : Storage} (hs : s ≠ .scalar) (hs' : s' ≠ .scalar)
    (h : s.loadOp = s'.loadOp) : s = s' := by
  cases s <;> cases s' <;> first | rfl | exact absurd rfl hs | exact absurd rfl hs' | cases h

/-- The load of an array in front of the check of an index. -/
theorem InFrame.reloading (hP : P.Fits) (hf : f.Valid ds P.scope P.pool)
    (h : InFrame P f c gs a rest) {S : ScopeTable} (hS : Scoped P.scope f.slots S)
    (hready : Ready S a) {v : VarUse} {y : String} {ty : Ty} {l : Layout}
    (hl : S.lookup v.name = some (.var y ty l)) (hv : v.layout = some l)
    (hstorage : l.storage ≠ .scalar) {t : String} (ht : t ≠ "op: load left")
    (hi : P.code[c.pc]? = some (.rm l.storage.loadOp .ac1 l.offset l.base t)) :
    Reloading P ⟨c.machine, io, ⟨gs, a :: rest⟩⟩ book := by
  have hcur := hP.current_eq hi
  constructor
  · intro offset hload
    exact absurd (Instr.rm.inj (Option.some.inj (hcur.symm.trans hload))).2.2.2.2 ht
  · intro v' l' t₁ t₂ e hv' hstorage' hload _ hdenote
    have hsame := Instr.rm.inj (Option.some.inj (hcur.symm.trans hload))
    obtain ⟨hop, -, hoffset, hbase, -⟩ := hsame
    have hglobal : l'.isGlobal = l.isGlobal := (Layout.isGlobal_of_base hbase).symm
    have hkind : l'.storage = l.storage := (Storage.eq_of_loadOp hstorage hstorage' hop).symm
    -- the instruction tells all that matters of the layout
    have hgp : (c.machine.reg .gp).toInt = P.top := by
      rw [← h.gp_eq]
      exact h.sane.toInt_origin true
    have he : (⟨gs, a :: rest⟩ : Shadow).denote P.top v = some e := by
      rw [← hdenote]
      simp only [Shadow.denote, hv, hv', hkind, hglobal, hoffset, hgp]
    obtain ⟨hsane, hlow, hhigh, hzero, hpos, hend, hlength, harray, href⟩ :=
      h.addresses hP hf hS hready hl hv he
    refine ⟨c, rfl, hP.toInt_pc hi, hsane, ?_, ?_, hzero, hpos, hend, hlength, ?_, ?_⟩
    · rw [← hoffset]
      exact hlow
    · rw [← hoffset]
      exact hhigh
    · rw [hkind, ← hoffset, hglobal]
      exact harray
    · rw [hkind, ← hoffset, hglobal]
      exact href

/-- A variable is loaded. The word that an array is loaded as stands for the array that the name
stands for. -/
theorem InFrame.load (hP : P.Fits) (hf : f.Valid ds P.scope P.pool) (h : InFrame P f c gs a rest)
    {S : ScopeTable} (hS : Scoped P.scope f.slots S) (hready : Ready S a) {v : VarUse} {y : String}
    {ty : Ty} {l : Layout} (hl : S.lookup v.name = some (.var y ty l)) (hv : v.layout = some l)
    {r : Reg} {t : String} (hr : r = .ac ∨ r = .ac1)
    (hi : P.code[c.pc]? = some (.rm l.storage.loadOp r l.offset l.base t))
    (hreload : Reloading P ⟨c.machine, io, ⟨gs, a :: rest⟩⟩ book)
    (hnoted : Instr.noted (.rm l.storage.loadOp r l.offset l.base t) = false)
    (hmk : P.marks[c.pc]? = some .body)
    (hnext : ∀ w, (ty.isArray = true → w = refWord ((⟨gs, a :: rest⟩ : Shadow).denote P.top v)) →
      ∀ m < n, Safe P m ⟨(c.next.put r w).machine, io, ⟨gs, a :: rest⟩⟩ book) :
    Safe P n ⟨c.machine, io, ⟨gs, a :: rest⟩⟩ book := by
  obtain ⟨hlow, hhigh⟩ := hS.offset_range hP hf hl
  have hnote : P.note c.machine book = book :=
    hP.note_eq hi hnoted hmk rfl
  cases hstorage : l.storage with
  | scalar =>
    rw [hstorage] at hi
    apply h.load_base hP hi hr hreload hnote hlow hhigh hmk
    intro _
    apply hnext
    intro harray
    exact absurd hstorage (hS.storage_ne_scalar hP hl harray)
  -- the name of an array is loaded as its address, and a reference as what it holds
  | array =>
    obtain ⟨e, hdenote, hbase⟩ := h.denote_array hP hS hready hl hv hstorage
    rw [hstorage] at hi
    apply h.address_base hP hi hr hreload hlow hhigh hmk
    apply hnext
    intro _
    rw [hdenote, refWord, hbase]
  | arrayRef =>
    rw [hstorage] at hi
    apply h.load_base hP hi hr hreload hnote hlow hhigh hmk
    intro _
    apply hnext
    intro _
    exact h.denote_reference hP hS hl hv hstorage

/-- The cell of a single value of the function or of a global one holds nothing else. -/
theorem InFrame.storable_variable (hP : P.Fits) (hf : f.Valid ds P.scope P.pool)
    (h : InFrame P f c gs a rest) {S : ScopeTable} (hS : Scoped P.scope f.slots S) {x y : String}
    {ty : Ty} {l : Layout} (hl : S.lookup x = some (.var y ty l)) (hty : ty.isArray = false) :
    Storable ⟨gs, a :: rest⟩ (l.offset + c.origin l.isGlobal) ∧
      (P.base < l.offset + c.origin l.isGlobal ∨ f.Owns a.base (l.offset + c.origin l.isGlobal)) ∧
      ∀ v ∈ f.slots, v.shape = .reference → l.offset + c.origin l.isGlobal ≠ a.base + v.offset := by
  rcases hS.slot hP hl with ⟨hlevel, s, hs, hholds⟩ | ⟨hlevel, s, hs, hholds⟩
  · have horigin : c.origin l.isGlobal = P.top := by
      rw [Layout.isGlobal, hlevel, ← h.gp_eq]
      rfl
    have hwithin := hP.tiled.within s hs
    have habove : P.base < l.offset + c.origin l.isGlobal := by
      rw [horigin, hholds.offset_eq]
      unfold Scene.base
      omega
    refine ⟨h.storable_global habove ?_, Or.inl habove, ?_⟩
    · intro e he heq
      -- the two slots are different, since one is a single value
      obtain ⟨w, hw, hshape, hbase⟩ := h.globals.only e he
      have hne : s ≠ w := by
        rintro rfl
        rw [hholds.scalar hty] at hshape
        cases hshape
      have hs_le := s.offset_le_top
      have hw_le := w.offset_le_top
      rw [horigin, hholds.offset_eq] at heq
      rcases hP.tiled.apart_of_ne hs hw hne with hap | hap
      · omega
      · omega
    · intro v hv _ heq
      have hbase := h.base_range
      have htop := v.offset_le_top
      have hin := hf.tiled.within v hv
      unfold firstFrameOffset at hin
      omega
  · have horigin : c.origin l.isGlobal = a.base := by
      rw [Layout.isGlobal, hlevel, ← h.fp_eq]
      rfl
    have hwithin := hf.tiled.within s hs
    have hs_le := s.offset_le_top
    have hshape := hholds.scalar hty
    unfold firstFrameOffset at hwithin
    have hapart : ∀ w ∈ f.slots, w.shape ≠ .scalar → l.offset + a.base ≠ a.base + w.offset := by
      intro w hw hw' heq
      have hne : s ≠ w := by
        rintro rfl
        exact hw' hshape
      have hw_le := w.offset_le_top
      rw [hholds.offset_eq] at heq
      rcases hf.tiled.apart_of_ne hs hw hne with hap | hap
      · omega
      · omega
    rw [horigin]
    refine ⟨h.storable_frame ?_ ?_, Or.inr ⟨s, hs, ?_, ?_, ?_⟩, ?_⟩
    · rw [hholds.offset_eq]
      omega
    · intro e he heq
      obtain ⟨w, hw, hshape', hbase⟩ := h.arrays e he
      rw [hbase] at heq
      exact hapart w hw (by rw [hshape']; exact Shape.noConfusion) heq
    · rw [hshape]
      exact Shape.noConfusion
    · rw [hholds.offset_eq]
      omega
    · rw [hholds.offset_eq]
      omega
    · intro v hv href
      exact hapart v hv (by rw [href]; exact Shape.noConfusion)

/-- The accumulator is assigned to a variable. -/
theorem InFrame.store (hP : P.Fits) (hf : f.Valid ds P.scope P.pool) (h : InFrame P f c gs a rest)
    {S : ScopeTable} (hS : Scoped P.scope f.slots S) {x y : String} {ty : Ty} {l : Layout}
    (hl : S.lookup x = some (.var y ty l)) (hty : ty.isArray = false) {t : String}
    (hi : P.code[c.pc]? = some (.rm .st .ac l.offset l.base t))
    (hnoted : Instr.noted (.rm .st .ac l.offset l.base t) = false)
    (hmk : P.marks[c.pc]? = some .body) {floor : Int}
    (hnext : ∀ m < n, ∀ c', c'.pc = c.pc + 1 → InFrame P f c' gs a rest →
      Kept P f a rest floor c.mem c'.mem → Safe P m ⟨c'.machine, io, ⟨gs, a :: rest⟩⟩ book) :
    Safe P n ⟨c.machine, io, ⟨gs, a :: rest⟩⟩ book := by
  obtain ⟨hlow, hhigh⟩ := hS.offset_range hP hf hl
  obtain ⟨hstorable, hplace, href⟩ := h.storable_variable hP hf hS hl hty
  have hnote : P.note c.machine book = book :=
    hP.note_eq hi hnoted hmk rfl
  apply h.store_base hP hi hnote hlow hhigh hmk (Or.inl rfl) (fun _ => hstorable)
  intro hpos m hm
  apply hnext m hm
  · rfl
  · exact h.write hP hpos hstorable href rfl rfl rfl
  · exact Kept.write hpos _ (Or.inr (hplace.imp_right Or.inl))

/-! ### Elements

Behind both checks the index lies between zero and the length, so the address is that of an element.
-/

/-- The word of an array is the address of a cell that holds the length of the array; for no array,
the cell is cell 0, which holds zero. -/
theorem InFrame.length_cell (hP : P.Fits) (h : InFrame P f c gs a rest) {S : ScopeTable}
    (hS : Scoped P.scope f.slots S) {v : VarUse} {y : String} {ty : Ty} {l : Layout}
    (hl : S.lookup v.name = some (.var y ty l)) (hv : v.layout = some l) :
    ∃ (base : Int) (size : Nat),
      refWord ((⟨gs, a :: rest⟩ : Shadow).denote P.top v) = Int64.ofInt base ∧ 0 ≤ base ∧
      base + size ≤ P.top ∧ c.mem.read base = Int64.ofInt size ∧
      (0 < size → ∃ e, (⟨gs, a :: rest⟩ : Shadow).denote P.top v = some e ∧
        e ∈ (⟨gs, a :: rest⟩ : Shadow).live ∧ e.base = base ∧ e.size = size) := by
  cases hdenote : (⟨gs, a :: rest⟩ : Shadow).denote P.top v with
  | none =>
    refine ⟨0, 0, rfl, Int.le_refl 0, hP.top_nonneg, h.sound.zero, ?_⟩
    intro hpos
    omega
  | some e =>
    have hlive := h.denote_live hP hS hl hv hdenote
    have hrange := h.sound.range hP.globalsEnd_le hlive
    exact ⟨e.base, e.size, rfl, by omega, hrange.2, h.sound.lengths e hlive,
      fun _ => ⟨e, rfl, hlive, rfl, rfl⟩⟩

/-- An index that passes both checks is in range, although the difference may wrap around. -/
theorem index_of_checks {i : Word} {size : Nat} (hsize : (size : Int) < 2 ^ 60)
    (hupper : ¬0 ≤ i - Int64.ofInt size) (hlower : ¬i < 0) : 0 ≤ i.toInt ∧ i.toInt < size := by
  have hpos : 0 ≤ i.toInt := by
    rw [Int64.lt_iff_toInt_lt] at hlower
    exact Int.not_lt.mp hlower
  have hmax := i.toInt_lt
  refine ⟨hpos, ?_⟩
  rw [Int64.le_iff_toInt_le, Int64.toInt_sub, Core.toInt_ofInt_of_isWord
    (Core.isWord_iff.mpr ⟨by omega, by omega⟩),
      Int.bmod_eq_of_le_mul_two (by omega) (by omega)] at hupper
  have : i.toInt - size < 0 := Int.not_le.mp hupper
  omega

/-- The code in front of an access checks the index and gives the address of an element of the
array that the name stands for. -/
theorem InFrame.elementAddress (hP : P.Fits) (hf : f.Valid ds P.scope P.pool)
    (h : InFrame P f c gs a rest) {S : ScopeTable} (hS : Scoped P.scope f.slots S)
    (hready : Ready S a) {v : VarUse} {y : String} {ty : Ty} {l : Layout}
    (hl : S.lookup v.name = some (.var y ty l)) (hv : v.layout = some l)
    (harray : ty.isArray = true)
    {start : Nat} {is : List Instr} (his : ElementCode l start is) (hpc : c.pc = start)
    (hcode : Holds P.code start is) (hmarks : Holds P.marks start (List.replicate 8 .body))
    (hnext : ∀ m < n, ∀ c' e x, c'.pc = start + 8 → c'.mem = c.mem → InFrame P f c' gs a rest →
      (⟨gs, a :: rest⟩ : Shadow).denote P.top v = some e → e ∈ (⟨gs, a :: rest⟩ : Shadow).live →
      e.Element x → c'.ac = Int64.ofInt x → Safe P m ⟨c'.machine, io, ⟨gs, a :: rest⟩⟩ book) :
    Safe P n ⟨c.machine, io, ⟨gs, a :: rest⟩⟩ book := by
  subst hpc
  have hremarks := his.remarks
  obtain ⟨t₁, t₂, t₃, t₄, t₅, t₆, tooLarge, negative, hlarge, hneg, rfl⟩ := his.form
  have ht₁ : t₁ ≠ "op: load left" := hremarks _ _ _ _ _ List.mem_cons_self
  have hstorage := hS.storage_ne_scalar hP hl harray
  have hnoted : Instr.noted (.rm l.storage.loadOp .ac1 l.offset l.base t₁) = false := by
    have hop : l.storage.loadOp ≠ .st := by cases l.storage <;> exact Opcode.noConfusion
    simp [Instr.noted, Instr.pushesLeft, Instr.loadsLeft, hop, ht₁]
  have hlen := hP.code_lt
  have hbound : c.pc + 8 ≤ P.code.length := hcode.bound (List.cons_ne_nil _ _)
  obtain rfl := Instr.relative_eq_ok hlarge (by omega) (by decide)
  obtain rfl := Instr.relative_eq_ok hneg (by omega) (by decide)
  simp only [holds_cons, List.replicate_succ, List.replicate_zero] at hcode hmarks
  obtain ⟨h₀, h₁, h₂, h₃, h₄, h₅, h₆, h₇, -⟩ := hcode
  obtain ⟨m₀, m₁, m₂, m₃, m₄, m₅, m₆, m₇, -⟩ := hmarks
  obtain ⟨base, size, hword, hbase, htop, hlength, hsome⟩ := h.length_cell hP hS hl hv
  have htop60 := hP.top_lt
  -- the length is loaded and compared
  apply h.load hP hf hS hready hl hv (Or.inr rfl) h₀
    (h.reloading hP hf hS hready hl hv hstorage ht₁ h₀) hnoted m₀
  intro w hw n₁ hn₁
  rw [hw harray, hword, Core.put_ac1]
  clear hw
  have hin₁ : InFrame P f { c.next with ac1 := Int64.ofInt base } gs a rest := h.of_eq rfl rfl rfl
  apply hin₁.loadLength hP h₁ m₁ rfl hbase (by omega)
  intro n₂ hn₂
  rw [show ({ c.next with ac1 := Int64.ofInt base } : Core).mem.read base = Int64.ofInt size from
    hlength]
  have hin₂ : InFrame P f { c with pc := c.pc + 1 + 1, ac1 := Int64.ofInt size } gs a rest :=
    h.of_eq rfl rfl rfl
  apply hin₂.arithmetic hP h₂ (Or.inr rfl) (Or.inl rfl) (Or.inr rfl) m₂ rfl
  intro n₃ hn₃
  have hin₃ : InFrame P f { c with pc := c.pc + 1 + 1 + 1, ac1 := c.ac - Int64.ofInt size } gs
      a rest :=
    h.of_eq rfl rfl rfl
  apply hin₃.branch hP h₃ (Or.inr rfl) m₃ rfl (by rfl) (by decide)
  · intro _ n₄ hn₄
    exact InFrame.fault hP (h.of_eq rfl rfl rfl) .upper rfl
  intro htaken n₄ hn₄
  have hupper : ¬0 ≤ c.ac - Int64.ofInt size := of_decide_eq_false htaken
  have hin₄ : InFrame P f { c with pc := c.pc + 1 + 1 + 1 + 1, ac1 := c.ac - Int64.ofInt size }
      gs a rest := h.of_eq rfl rfl rfl
  apply hin₄.branch hP h₄ (Or.inl rfl) m₄ rfl (by rfl) (by decide)
  · intro _ n₅ hn₅
    exact InFrame.fault hP (h.of_eq rfl rfl rfl) .lower rfl
  intro htaken n₅ hn₅
  have hlower : ¬c.ac < 0 := of_decide_eq_false htaken
  -- the index is in range, so there is an array
  obtain ⟨hpos, hlt⟩ := index_of_checks (by omega) hupper hlower
  obtain ⟨e, hdenote, hlive, rfl, rfl⟩ := hsome (by omega)
  have hin₅ : InFrame P f
      { c with pc := c.pc + 1 + 1 + 1 + 1 + 1, ac1 := c.ac - Int64.ofInt e.size } gs a rest :=
    h.of_eq rfl rfl rfl
  apply hin₅.load hP hf hS hready hl hv (Or.inr rfl) h₅
    (hin₅.reloading hP hf hS hready hl hv hstorage ht₁ h₅) hnoted m₅
  intro w hw n₆ hn₆
  rw [hw harray, hword, Core.put_ac1]
  clear hw
  have hin₆ : InFrame P f { c with pc := c.pc + 1 + 1 + 1 + 1 + 1 + 1, ac1 := Int64.ofInt e.base }
      gs a rest := h.of_eq rfl rfl rfl
  apply hin₆.arithmetic hP h₆ (Or.inl rfl) (Or.inr rfl) (Or.inl rfl) m₆ rfl
  intro n₇ hn₇
  have hsum : Int64.ofInt e.base + c.ac = Int64.ofInt (e.base + c.ac.toInt) := by
    rw [Int64.ofInt_add, Int64.ofInt_toInt]
  have hin₇ : InFrame P f (Core.mk (c.pc + 1 + 1 + 1 + 1 + 1 + 1 + 1) (Int64.ofInt e.base + c.ac)
      (Int64.ofInt e.base) c.fp c.gp c.mem) gs a rest := h.of_eq rfl rfl rfl
  apply hin₇.skipLength hP h₇ m₇ hsum (by omega) (by omega)
  intro m hm
  apply hnext m (by omega) _ e (e.base + c.ac.toInt + 1)
  · rfl
  · rfl
  · exact h.of_eq rfl rfl rfl
  · exact hdenote
  · exact hlive
  · exact ⟨by omega, by omega⟩
  · rfl

end Frame

end MiniC
