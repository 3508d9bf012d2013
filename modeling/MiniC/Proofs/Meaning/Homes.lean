import MiniC.Proofs.Meaning.Runs

/-!
# Objects in memory

Each object that a name can still reach has a home: the cells of the memory that belong to it. The
memory represents the objects if every word of theirs is in its cell. Names are found in the scopes
of the analysis with the offsets of these homes, and in the environment with the numbers of the
objects.

* `Represents`: the words of objects are in the cells of their homes
* `Represents.assign`, `Represents.assignElement`: an assignment to an object is a write to memory
* `Names`: scopes and environment speak about the same objects
-/

namespace MiniC

/-! ### Homes

An object of the world is a variable or an array, and has a home in the memory: one cell, or a
length cell with the elements above it. Homes of different objects have no cell in common. -/

/-- Where an object lies: its first cell, and the number of elements of an array. The first cell of
an array holds its length. -/
structure Home where
  id : Nat
  base : Int
  size : Option Nat

namespace Home

/-- The last cell of the object. -/
def top (h : Home) : Int :=
  h.base + (h.size.getD 0 : Nat)

/-- The cell belongs to the object. -/
def Covers (h : Home) (x : Int) : Prop :=
  h.base ≤ x ∧ x ≤ h.top

/-- No cell belongs to both objects. -/
def Apart (h h' : Home) : Prop :=
  h.top < h'.base ∨ h'.top < h.base

/-- The words of the object are in its cells. A variable may lie outside of the memory as long as
it is not used. -/
def Keeps (h : Home) (mem : Memory) : Object → Prop
  | .cell content => h.size = none ∧
      ∀ a, content = some a → InRange a ∧ (0 < h.base → mem.read h.base = a)
  | .array cells => h.size = some cells.length ∧ 0 < h.base ∧
      mem.read h.base = Int64.ofInt cells.length ∧
      ∀ (i : Nat) a, cells[i]? = some (some a) → InRange a ∧ mem.read (h.base + 1 + i) = a

/-- A home has one cell at least. -/
theorem base_le_top (h : Home) : h.base ≤ h.top := by
  unfold top
  omega

/-- A variable has one cell. -/
theorem top_of_none {h : Home} (hsize : h.size = none) : h.top = h.base := by
  unfold top
  rw [hsize, Option.getD_none]
  exact Int.add_zero _

/-- The elements of an array are above its length. -/
theorem top_of_size {h : Home} {n : Nat} (hsize : h.size = some n) : h.top = h.base + n := by
  unfold top
  rw [hsize, Option.getD_some]

/-- An element of an array lies above its first cell. -/
theorem covers_element {h : Home} {n i : Nat} (hsize : h.size = some n) (hi : i < n) :
    h.Covers (h.base + 1 + i) := by
  unfold Covers
  rw [top_of_size hsize]
  omega

/-- A write to another cell leaves the object alone. -/
theorem Keeps.write {h : Home} {mem : Memory} {o : Object} (hk : h.Keeps mem o) {x : Int} (a : Word)
    (hx : 0 < x) (hfree : ¬h.Covers x) : h.Keeps (mem.write x a) o := by
  cases o with
  | cell content =>
    refine ⟨hk.1, ?_⟩
    intro b hb
    obtain ⟨hrange, hread⟩ := hk.2 b hb
    refine ⟨hrange, fun hpos => ?_⟩
    have hne : x ≠ h.base := by
      rintro rfl
      exact hfree ⟨Int.le_refl _, h.base_le_top⟩
    rw [Memory.read_write_of_ne hx hne, hread hpos]
  | array cells =>
    obtain ⟨hsize, hpos, hlength, hcells⟩ := hk
    have hne : x ≠ h.base := by
      rintro rfl
      exact hfree ⟨Int.le_refl _, h.base_le_top⟩
    refine ⟨hsize, hpos, by rw [Memory.read_write_of_ne hx hne, hlength], ?_⟩
    intro i b hb
    obtain ⟨hrange, hread⟩ := hcells i b hb
    have hi : i < cells.length := (List.getElem?_eq_some_iff.mp hb).1
    have hne : x ≠ h.base + 1 + i := by
      rintro rfl
      exact hfree (covers_element hsize hi)
    exact ⟨hrange, by rw [Memory.read_write_of_ne hx hne, hread]⟩

end Home

/-- The words of objects are in the cells of their homes, and no two homes share a cell. -/
structure Represents (homes : List Home) (top : Int) (objects : List Object) (mem : Memory) :
    Prop where
  kept : ∀ h ∈ homes, ∃ o, objects[h.id]? = some o ∧ h.Keeps mem o
  below : ∀ h ∈ homes, h.top ≤ top
  apart : ∀ h ∈ homes, ∀ h' ∈ homes, h = h' ∨ (h.id ≠ h'.id ∧ h.Apart h')

namespace Represents

variable {homes : List Home} {top : Int} {objects : List Object} {mem : Memory}

/-- The object of a variable is a cell. -/
theorem cell (h : Represents homes top objects mem) {s : Home} (hs : s ∈ homes)
    (hsize : s.size = none) : ∃ content, objects[s.id]? = some (.cell content) ∧
      ∀ a, content = some a → InRange a ∧ (0 < s.base → mem.read s.base = a) := by
  obtain ⟨o, ho, hk⟩ := h.kept s hs
  cases o with
  | cell content => exact ⟨content, ho, hk.2⟩
  | array cells =>
    have hsome := hk.1
    rw [hsize] at hsome
    cases hsome

/-- The object of an array has its length in the first cell. -/
theorem array (h : Represents homes top objects mem) {s : Home} (hs : s ∈ homes) {n : Nat}
    (hsize : s.size = some n) : ∃ cells, objects[s.id]? = some (.array cells) ∧ cells.length = n ∧
      0 < s.base ∧ mem.read s.base = Int64.ofInt n ∧
      ∀ (i : Nat) a, cells[i]? = some (some a) → InRange a ∧ mem.read (s.base + 1 + i) = a := by
  obtain ⟨o, ho, hk⟩ := h.kept s hs
  cases o with
  | cell content =>
    have hnone := hk.1
    rw [hsize] at hnone
    cases hnone
  | array cells =>
    obtain ⟨hlen, hpos, hlength, hcells⟩ := hk
    rw [hsize] at hlen
    cases hlen
    exact ⟨cells, ho, rfl, hpos, hlength, hcells⟩

/-- Fewer homes are represented as well. -/
theorem sub (h : Represents homes top objects mem) {homes' : List Home}
    (hsub : ∀ s ∈ homes', s ∈ homes) : Represents homes' top objects mem :=
  ⟨fun s hs => h.kept s (hsub s hs), fun s hs => h.below s (hsub s hs),
    fun s hs s' hs' => h.apart s (hsub s hs) s' (hsub s' hs')⟩

/-- A write to a cell that belongs to no object. -/
theorem write (h : Represents homes top objects mem) {x : Int} (a : Word) (hx : 0 < x)
    (hfree : ∀ s ∈ homes, ¬s.Covers x) : Represents homes top objects (mem.write x a) := by
  refine ⟨?_, h.below, h.apart⟩
  intro s hs
  obtain ⟨o, ho, hk⟩ := h.kept s hs
  exact ⟨o, ho, hk.write a hx (hfree s hs)⟩

/-- A write to a cell of one object, which is changed accordingly. -/
theorem replace (h : Represents homes top objects mem) {s : Home} (hs : s ∈ homes) {x : Int}
    {a : Word} {o : Object} (hx : 0 < x) (hcovers : s.Covers x) (hk : s.Keeps (mem.write x a) o) :
    Represents homes top (objects.set s.id o) (mem.write x a) := by
  refine ⟨?_, h.below, h.apart⟩
  intro s' hs'
  rcases h.apart s hs s' hs' with rfl | ⟨hid, hapart⟩
  · obtain ⟨o', ho', -⟩ := h.kept s hs
    have hlt := (List.getElem?_eq_some_iff.mp ho').1
    exact ⟨o, List.getElem?_set_self hlt, hk⟩
  · obtain ⟨o', ho', hk'⟩ := h.kept s' hs'
    refine ⟨o', by rw [List.getElem?_set_ne hid, ho'], hk'.write a hx ?_⟩
    have hle := s.base_le_top
    have hle' := s'.base_le_top
    unfold Home.Covers at hcovers ⊢
    unfold Home.Apart at hapart
    omega

/-- An assignment to a variable. -/
theorem assign (h : Represents homes top objects mem) {s : Home} (hs : s ∈ homes)
    (hsize : s.size = none) (hpos : 0 < s.base) {a : Word} (ha : InRange a) :
    Represents homes top (objects.set s.id (.cell (some a))) (mem.write s.base a) := by
  refine h.replace hs hpos ⟨Int.le_refl _, s.base_le_top⟩ ⟨hsize, ?_⟩
  intro b hb
  cases hb
  exact ⟨ha, fun _ => Memory.read_write_self _ _ _⟩

/-- An assignment to an element of an array. -/
theorem assignElement (h : Represents homes top objects mem) {s : Home} (hs : s ∈ homes) {n i : Nat}
    (hsize : s.size = some n) (hi : i < n) {cells : List (Option Word)}
    (ho : objects[s.id]? = some (.array cells)) {a : Word} (ha : InRange a) :
    Represents homes top (objects.set s.id (.array (cells.set i (some a))))
      (mem.write (s.base + 1 + i) a) := by
  obtain ⟨cells', ho', hlen, hpos, hlength, hcells⟩ := h.array hs hsize
  rw [ho] at ho'
  cases ho'
  have hx : 0 < s.base + 1 + i := by omega
  refine h.replace hs hx (Home.covers_element hsize hi) ⟨?_, hpos, ?_, ?_⟩
  · rw [List.length_set, hlen, hsize]
  · rw [Memory.read_write_of_ne hx (by omega), List.length_set, hlen, hlength]
  · intro j b hb
    rw [List.getElem?_set] at hb
    split at hb
    · rename_i heq
      split at hb
      · cases hb
        rw [← heq, Memory.read_write_self]
        exact ⟨ha, rfl⟩
      · cases hb
    · obtain ⟨hrange, hread⟩ := hcells j b hb
      exact ⟨hrange, by rw [Memory.read_write_of_ne hx (by omega), hread]⟩

/-- A new object that lies below all others. -/
theorem make (h : Represents homes top objects mem) {s : Home} {o : Object}
    (hid : s.id = objects.length) (hk : s.Keeps mem o) (htop : s.top ≤ top)
    (hbelow : ∀ s' ∈ homes, s.top < s'.base) :
    Represents (s :: homes) top (objects ++ [o]) mem := by
  -- objects are numbered in order, so no home has the number of the new one
  have hlt : ∀ s' ∈ homes, s'.id < objects.length := by
    intro s' hs'
    obtain ⟨o', ho', -⟩ := h.kept s' hs'
    exact (List.getElem?_eq_some_iff.mp ho').1
  refine ⟨?_, ?_, ?_⟩
  · intro s' hs'
    rcases List.mem_cons.mp hs' with rfl | hs'
    · exact ⟨o, by rw [hid, List.getElem?_concat_length], hk⟩
    · obtain ⟨o', ho', hk'⟩ := h.kept s' hs'
      exact ⟨o', by rw [List.getElem?_append_left (hlt s' hs'), ho'], hk'⟩
  · intro s' hs'
    rcases List.mem_cons.mp hs' with rfl | hs'
    · exact htop
    · exact h.below s' hs'
  · intro s₁ hs₁ s₂ hs₂
    rcases List.mem_cons.mp hs₁ with rfl | hold₁
    · rcases List.mem_cons.mp hs₂ with rfl | hold₂
      · exact Or.inl rfl
      · have := hlt s₂ hold₂
        exact Or.inr ⟨by omega, Or.inl (hbelow s₂ hold₂)⟩
    · rcases List.mem_cons.mp hs₂ with rfl | hold₂
      · have := hlt s₁ hold₁
        exact Or.inr ⟨by omega, Or.inr (hbelow s₁ hold₁)⟩
      · exact h.apart s₁ hold₁ s₂ hold₂

end Represents

/-! ### Cells that stay

While a phrase runs, only the homes change, and what is below the frame. The rest holds what is put
aside. -/

/-- The cells above `floor` that belong to no object are unchanged. -/
def Spared (homes : List Home) (floor : Int) (mem mem' : Memory) : Prop :=
  ∀ x, 0 < x → floor < x → (∀ s ∈ homes, ¬s.Covers x) → mem'.read x = mem.read x

namespace Spared

variable {homes : List Home} {floor : Int} {mem mem' mem'' : Memory}

/-- Nothing has changed yet. -/
theorem refl (homes : List Home) (floor : Int) (mem : Memory) : Spared homes floor mem mem :=
  fun _ _ _ _ => rfl

/-- What two stretches of a run spare, both together spare. -/
theorem trans (h : Spared homes floor mem mem') (h' : Spared homes floor mem' mem'') :
    Spared homes floor mem mem'' := by
  intro x hx hfloor hfree
  rw [h' x hx hfloor hfree, h x hx hfloor hfree]

/-- What is spared above a floor is spared above a higher one. -/
theorem raise (h : Spared homes floor mem mem') {floor' : Int} (hle : floor ≤ floor') :
    Spared homes floor' mem mem' :=
  fun x hx hfloor hfree => h x hx (by omega) hfree

/-- A store to a home, or below the floor, spares the rest. -/
theorem write {x : Int} (hx : 0 < x) (h : x ≤ floor ∨ ∃ s ∈ homes, s.Covers x) (mem : Memory)
    (a : Word) : Spared homes floor mem (mem.write x a) := by
  intro y _ hfloor hfree
  apply Memory.read_write_of_ne hx
  rintro rfl
  rcases h with hle | ⟨s, hs, hcovers⟩
  · omega
  · exact hfree s hs hcovers

end Spared

/-! ### Names

A name stands for an object in the environment, and for an offset or a reference in the scope.
`Names` relates the two. -/

/-- The base that the offset of a variable counts from. -/
def Stage.origin (P : Stage) (fp : Int) (l : Layout) : Int :=
  if l.isGlobal then P.top else fp

/-- A name with the storage `l` stands for an object that has a home there. A reference lies above
`floor`, in a cell that belongs to no object, and holds the address of an array. -/
inductive Bound (P : Stage) (homes : List Home) (floor fp : Int) (mem : Memory) (l : Layout) :
    Bool → Option Nat → Prop where
  | cell {s : Home} (hs : s ∈ homes) (hstorage : l.storage = .scalar) (hsize : s.size = none)
      (hbase : s.base = l.offset + P.origin fp l) : Bound P homes floor fp mem l false (some s.id)
  | array {s : Home} {n : Nat} (hs : s ∈ homes) (hstorage : l.storage = .array)
      (hsize : s.size = some n) (hbase : s.base = l.offset + P.origin fp l) :
      Bound P homes floor fp mem l true (some s.id)
  | reference {s : Home} {n : Nat} (hs : s ∈ homes) (hstorage : l.storage = .arrayRef)
      (hsize : s.size = some n) (hlocal : l.isGlobal = false) (hfloor : floor < l.offset + fp)
      (hfree : ∀ s' ∈ homes, ¬s'.Covers (l.offset + fp))
      (hread : 0 < l.offset + fp → mem.read (l.offset + fp) = Int64.ofInt s.base) :
      Bound P homes floor fp mem l true (some s.id)
  | unset (hstorage : l.storage = .arrayRef) : Bound P homes floor fp mem l true none

/-- Scopes and environment speak about the same objects, and about the functions of the program. -/
structure Names (P : Stage) (homes : List Home) (floor fp : Int) (mem : Memory) (S : ScopeTable)
    (env : Env) : Prop where
  valid : S.Valid
  objects : ∀ x n ty l, S.lookup x = some (.var n ty l) → -2 ^ 31 ≤ l.offset ∧ l.offset ≤ 0 ∧
    ∃ b, env.lookup x = some b ∧ Bound P homes floor fp mem l ty.isArray b
  functions : ∀ x n r ps d, S.lookup x = some (.function n r ps d) →
    n = x ∧ P.scope.Signature x r (ps.map Param.ty)

namespace Names

variable {P : Stage} {homes : List Home} {floor fp : Int} {mem : Memory} {S : ScopeTable}
  {env : Env}

/-- The names of a state still stand for the same in a later one, in which the references are as
they were. -/
theorem of_bound {homes' : List Home} {floor' : Int} {mem' : Memory}
    (h : Names P homes floor fp mem S env)
    (hbound : ∀ l b id, Bound P homes floor fp mem l b id → Bound P homes' floor' fp mem' l b id) :
    Names P homes' floor' fp mem' S env := by
  refine ⟨h.valid, ?_, h.functions⟩
  intro x n ty l hl
  obtain ⟨hlow, hhigh, b, hb, hb'⟩ := h.objects x n ty l hl
  exact ⟨hlow, hhigh, b, hb, hbound l _ b hb'⟩

/-- References are not among the cells that change. -/
theorem spared (h : Names P homes floor fp mem S env) {mem' : Memory}
    (hmem : Spared homes floor mem mem') : Names P homes floor fp mem' S env := by
  refine h.of_bound ?_
  intro l b id hb
  cases hb with
  | cell hs hstorage hsize hbase => exact .cell hs hstorage hsize hbase
  | array hs hstorage hsize hbase => exact .array hs hstorage hsize hbase
  | reference hs hstorage hsize hlocal hfloor hfree hread =>
    refine .reference hs hstorage hsize hlocal hfloor hfree fun hpos => ?_
    rw [hmem _ hpos hfloor hfree, hread hpos]
  | unset hstorage => exact .unset hstorage

/-- A lower floor. -/
theorem lower (h : Names P homes floor fp mem S env) {floor' : Int} (hle : floor' ≤ floor) :
    Names P homes floor' fp mem S env := by
  refine h.of_bound ?_
  intro l b id hb
  cases hb with
  | cell hs hstorage hsize hbase => exact .cell hs hstorage hsize hbase
  | array hs hstorage hsize hbase => exact .array hs hstorage hsize hbase
  | reference hs hstorage hsize hlocal hfloor hfree hread =>
    exact .reference hs hstorage hsize hlocal (by omega) hfree hread
  | unset hstorage => exact .unset hstorage

/-- A new object below `floor` hides no reference. -/
theorem make (h : Names P homes floor fp mem S env) {s : Home} (hs : s.top ≤ floor) :
    Names P (s :: homes) floor fp mem S env := by
  refine h.of_bound ?_
  intro l b id hb
  cases hb with
  | cell hs hstorage hsize hbase =>
    exact .cell (List.mem_cons_of_mem _ hs) hstorage hsize hbase
  | array hs hstorage hsize hbase =>
    exact .array (List.mem_cons_of_mem _ hs) hstorage hsize hbase
  | reference hs' hstorage hsize hlocal hfloor hfree hread =>
    refine .reference (List.mem_cons_of_mem _ hs') hstorage hsize hlocal hfloor ?_ hread
    intro s' hs'
    rcases List.mem_cons.mp hs' with rfl | hs'
    · unfold Home.Covers
      omega
    · exact hfree s' hs'
  | unset hstorage => exact .unset hstorage

/-- A new block has no names yet. -/
theorem enter (h : Names P homes floor fp mem S env) : Names P homes floor fp mem S.enter env := by
  refine ⟨h.valid.enter, ?_, ?_⟩
  · intro x n ty l hl
    rw [ScopeTable.lookup_enter] at hl
    exact h.objects x n ty l hl
  · intro x n r ps d hl
    rw [ScopeTable.lookup_enter] at hl
    exact h.functions x n r ps d hl

/-- A new name hides what it stood for on both sides. -/
theorem declare (h : Names P homes floor fp mem S env) {x : String} {ty : Ty} {l : Layout}
    {S' : ScopeTable} (hd : S.declare? x (.var x ty l) = some S') (hlow : -2 ^ 31 ≤ l.offset)
    (hhigh : l.offset ≤ 0) {b : Option Nat} (hb : Bound P homes floor fp mem l ty.isArray b) :
    Names P homes floor fp mem S' ((x, b) :: env) := by
  refine ⟨h.valid.declare hd, ?_, ?_⟩
  · intro y n ty' l' hl
    rw [ScopeTable.lookup_declare h.valid hd] at hl
    split at hl
    · rename_i heq
      cases hl
      exact ⟨hlow, hhigh, b, by rw [heq, List.lookup_cons_self], hb⟩
    · rename_i hne
      obtain ⟨hlow', hhigh', b', hlookup, hb'⟩ := h.objects y n ty' l' hl
      refine ⟨hlow', hhigh', b', ?_, hb'⟩
      have hbeq : (y == x) = false := by
        rw [beq_eq_false_iff_ne]
        exact fun heq => hne heq.symm
      rw [List.lookup_cons, hbeq, hlookup]
  · intro y n r ps d hl
    rw [ScopeTable.lookup_declare h.valid hd] at hl
    split at hl
    · cases hl
    · exact h.functions y n r ps d hl

end Names

/-! ### States

A state of the machine stands for a state of the world if the homes hold what the objects have. -/

/-- A word that can stand beside the number of any constant without leaving the range of words. -/
def Mild (a : Word) : Prop :=
  -2 ^ 62 ≤ a.toInt ∧ a.toInt ≤ 2 ^ 62

/-- What is far from the ends of the range is not at its ends. -/
theorem InRange.mild {a : Word} (h : InRange a) : Mild a := by
  unfold InRange at h
  unfold Mild
  omega

/-- Numbers that are not negative and below this bound are not at the ends of the range. -/
theorem mild_of_nonneg {n : Int} (h : 0 ≤ n) (hlt : n < 2 ^ 62) : Mild (Int64.ofInt n) := by
  unfold Mild
  rw [Core.toInt_ofInt_of_isWord (Core.isWord_iff.mpr ⟨by omega, by omega⟩)]
  omega

/-- The machine is in a state that stands for a world. Calls can be nested `depth` deep below the
running function: there is room for their frames if the memory is larger than `P.cap`. -/
structure Faithful (P : Stage) (depth : Nat) (homes : List Home) (c : Core) (w : World) : Prop where
  sane : c.Sane
  gp_eq : c.gp = P.top
  deep : P.top + 2 ^ 31 * (depth + 1) ≤ c.fp + P.cap
  mild : Mild c.ac
  clear : c.mem.read 0 = 0
  represents : Represents homes P.top w.objects c.mem

namespace Faithful

variable {P : Stage} {depth : Nat} {homes : List Home} {c c' : Core} {w : World}

/-- Only the base registers, the memory and the accumulator matter. -/
theorem of_eq (h : Faithful P depth homes c w) (hfp : c'.fp = c.fp) (hgp : c'.gp = c.gp)
    (hmem : c'.mem = c.mem) (hac : Mild c'.ac) : Faithful P depth homes c' w := by
  obtain ⟨⟨hfp₀, hle, hlt, hsize⟩, hgp₀, hdeep, -, hclear, hrep⟩ := h
  refine ⟨⟨?_, ?_, ?_, ?_⟩, ?_, ?_, hac, ?_, ?_⟩
  · rw [hfp]; exact hfp₀
  · rw [hfp, hgp]; exact hle
  · rw [hgp]; exact hlt
  · rw [hmem, hgp]; exact hsize
  · rw [hgp]; exact hgp₀
  · rw [hfp]; exact hdeep
  · rw [hmem]; exact hclear
  · rw [hmem]; exact hrep

/-- Moving on changes nothing in the world. -/
theorem next (h : Faithful P depth homes c w) : Faithful P depth homes c.next w :=
  h.of_eq rfl rfl rfl h.mild

/-- The memory and the world change together. -/
theorem write (h : Faithful P depth homes c w) {x : Int} {a : Word} (hx : 0 < x) {w' : World}
    (hrep : Represents homes P.top w'.objects (c.mem.write x a)) :
    Faithful P depth homes { c with mem := c.mem.write x a } w' := by
  obtain ⟨⟨hfp₀, hle, hlt, hsize⟩, hgp₀, hdeep, hmild, hclear, -⟩ := h
  refine ⟨⟨hfp₀, hle, hlt, hsize⟩, hgp₀, hdeep, hmild, ?_, hrep⟩
  show (c.mem.write x a).read 0 = 0
  rw [Memory.read_write_of_ne hx (by omega), hclear]

/-- An access below cell 1 can only happen if the memory is small. -/
theorem top_le_cap (h : Faithful P depth homes c w) {d : Int} (hd : -2 ^ 31 ≤ d) (g : Bool)
    (hover : d + c.origin g ≤ 0) : P.top ≤ P.cap := by
  have hdeep := h.deep
  have hgp := h.gp_eq
  have hle := h.sane.fp_le
  have hfp := h.sane.fp_nonneg
  unfold Core.origin at hover
  split at hover
  · omega
  · omega

end Faithful

end MiniC
