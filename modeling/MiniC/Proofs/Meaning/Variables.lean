import MiniC.Proofs.Meaning.Instructions

/-!
# Variables in runs

How the code of an expression uses names: it loads the value of a variable, stores one, and turns
an index into the address of an element. Each statement takes the computation that does the same
with the objects of an environment.

* `Prepared`: the state of the machine before the code of an expression
* `After`: what such code has left behind
* `Runs.loadVariable`, `Runs.assign`, `Runs.elementAddress`
-/

namespace MiniC

/-! ### Words

Small numbers are represented exactly, and so are their sums and differences. -/

/-- A difference that does not wrap around. -/
theorem toInt_sub_of_range {a b : Word} (hlow : -2 ^ 63 ≤ a.toInt - b.toInt)
    (hhigh : a.toInt - b.toInt < 2 ^ 63) : (a - b).toInt = a.toInt - b.toInt := by
  rw [Int64.toInt_sub, Int.bmod_eq_of_le_mul_two (by omega) (by omega)]

theorem toInt_ofInt_of_lt {n : Int} (h : 0 ≤ n) (hlt : n < 2 ^ 62) : (Int64.ofInt n).toInt = n :=
  Core.toInt_ofInt_of_isWord (Core.isWord_iff.mpr ⟨by omega, by omega⟩)

/-! ### States before and after an expression

Code that keeps its temporary values from `offset` downwards leaves objects and higher cells alone.
`After` says so, and two such pieces of code compose. -/

/-- The machine can execute code that keeps temporary words from `offset` downwards. -/
structure Prepared (P : Stage) (depth : Nat) (homes : List Home) (offset : Int) (S : ScopeTable)
    (env : Env) (c : Core) (w : World) : Prop where
  faithful : Faithful P depth homes c w
  names : Names P homes (c.fp + offset) c.fp c.mem S env
  above : ∀ s ∈ homes, c.fp + offset < s.base
  offset_le : offset ≤ 0

/-- Code that keeps temporary words from `offset` downwards has led from one state to another. -/
structure After (P : Stage) (depth : Nat) (homes : List Home) (offset : Int) (S : ScopeTable)
    (env : Env) (c c' : Core) (w' : World) : Prop where
  prepared : Prepared P depth homes offset S env c' w'
  fp_eq : c'.fp = c.fp
  spared : Spared homes (c.fp + offset) c.mem c'.mem

section States

variable {P : Stage} {depth : Nat} {homes : List Home} {offset : Int} {S : ScopeTable} {env : Env}
  {c c' c'' : Core} {w w' : World}

/-- Registers and memory may change, as long as objects and references are there. -/
theorem Prepared.after (h : Prepared P depth homes offset S env c w)
    (hF : Faithful P depth homes c' w')
    (hfp : c'.fp = c.fp) (hspared : Spared homes (c.fp + offset) c.mem c'.mem) :
    After P depth homes offset S env c c' w' := by
  refine ⟨⟨hF, ?_, ?_, h.offset_le⟩, hfp, hspared⟩
  · rw [hfp]
    exact h.names.spared hspared
  · rw [hfp]
    exact h.above

/-- Only registers have changed. -/
theorem Prepared.of_eq (h : Prepared P depth homes offset S env c w) (hfp : c'.fp = c.fp)
    (hgp : c'.gp = c.gp) (hmem : c'.mem = c.mem) (hac : Mild c'.ac) :
    After P depth homes offset S env c c' w :=
  h.after (h.faithful.of_eq hfp hgp hmem hac) hfp (by rw [hmem]; exact Spared.refl _ _ _)

theorem After.trans (h : After P depth homes offset S env c c' w)
    (h' : After P depth homes offset S env c' c'' w') : After P depth homes offset S env c c'' w' :=
  ⟨h'.prepared, by rw [h'.fp_eq, h.fp_eq], h.spared.trans (by rw [← h.fp_eq]; exact h'.spared)⟩

/-- Nothing has happened yet. -/
theorem Prepared.refl (h : Prepared P depth homes offset S env c w) :
    After P depth homes offset S env c c w :=
  h.of_eq rfl rfl rfl h.faithful.mild

/-- Only registers have changed since. -/
theorem After.of_eq (h : After P depth homes offset S env c c' w) (hfp : c''.fp = c'.fp)
    (hgp : c''.gp = c'.gp) (hmem : c''.mem = c'.mem) (hac : Mild c''.ac) :
    After P depth homes offset S env c c'' w :=
  h.trans (h.prepared.of_eq hfp hgp hmem hac)

/-- The machine goes on elsewhere. -/
theorem After.goto (h : After P depth homes offset S env c c' w) (n : Nat) :
    After P depth homes offset S env c { c' with pc := n } w :=
  h.of_eq rfl rfl rfl h.prepared.faithful.mild

/-- Temporary words may be kept further down. -/
theorem Prepared.lower (h : Prepared P depth homes offset S env c w) {offset' : Int}
    (hle : offset' ≤ offset) : Prepared P depth homes offset' S env c w := by
  refine ⟨h.faithful, h.names.lower (by omega), ?_, ?_⟩
  · intro s hs
    have := h.above s hs
    omega
  · have := h.offset_le
    omega

/-- Code that uses fewer cells has left more behind. -/
theorem After.raise {offset' : Int} (h : After P depth homes offset' S env c c' w')
    (hprep : Prepared P depth homes offset S env c w) (hle : offset' ≤ offset) :
    After P depth homes offset S env c c' w' :=
  hprep.after h.prepared.faithful h.fp_eq (h.spared.raise (by omega))

theorem Prepared.free (h : Prepared P depth homes offset S env c w) {x : Int}
    (hx : x ≤ c.fp + offset) : ∀ s ∈ homes, ¬s.Covers x := by
  intro s hs hcovers
  have := h.above s hs
  unfold Home.Covers at hcovers
  omega

theorem Prepared.origin_eq (h : Prepared P depth homes offset S env c w) (l : Layout) :
    c.origin l.isGlobal = P.origin c.fp l := by
  unfold Core.origin Stage.origin
  rw [h.faithful.gp_eq]

/-- The accumulator is stored in a temporary cell. -/
theorem Prepared.push (h : Prepared P depth homes offset S env c w) {x : Int} (hpos : 0 < x)
    (hx : x ≤ c.fp + offset) (a : Word) :
    After P depth homes offset S env c { c.next with mem := c.mem.write x a } w := by
  apply h.after
  · exact h.faithful.next.write hpos (h.faithful.represents.write a hpos (h.free hx))
  · rfl
  · exact Spared.write hpos (Or.inl hx) _ _

end States

/-! ### Values

What the accumulator holds for a value, and the code for each use of a name, next to the computation
on the environment. -/

/-- The accumulator holds a value; an array is held by its address. -/
def Value.Held (homes : List Home) (a : Word) : Value → Prop
  | .word b => a = b ∧ InRange b
  | .array id => ∃ s ∈ homes, s.id = id ∧ (∃ n, s.size = some n) ∧ a = Int64.ofInt s.base
  | .nothing => True

/-- A value of a type is an array if the type is. -/
def Value.OfTy (ty : Ty) : Value → Prop
  | .word _ => ty.isArray = false
  | .array _ => ty.isArray = true
  | .nothing => ty.isArray = false

section Access

variable {P : Stage} {depth : Nat} {homes : List Home} {offset : Int} {S : ScopeTable} {env : Env}
  {c : Core} {w : World} {α : Type}

/-- A value that is used as a word is one, or the computation stops. -/
theorem Runs.asWord {K : Word → Eval α} {v : Value} {ty : Ty} (hheld : v.Held homes c.ac)
    (hty : v.OfTy ty) (hscalar : ty.isArray = false)
    (h : InRange c.ac → Runs P c w (K c.ac)) : Runs P c w (v.asWord >>= K) := by
  cases v with
  | word a =>
    obtain ⟨rfl, hrange⟩ := hheld
    show Runs P c w (pure c.ac >>= K)
    rw [pure_bind]
    exact h hrange
  | array id =>
    unfold Value.OfTy at hty
    rw [hscalar] at hty
    cases hty
  | nothing => exact Runs.undefined

/-- A name that stands for an object. -/
theorem Runs.get {x : String} {id : Nat} (hx : env.lookup x = some (some id)) {K : Nat → Eval α}
    (h : Runs P c w (K id)) : Runs P c w (env.get x >>= K) := by
  unfold Env.get
  rw [hx, pure_bind]
  exact h

/-- A name that stands for no object. -/
theorem Runs.get_none {x : String} (hx : env.lookup x = some none) {K : Nat → Eval α} :
    Runs P c w (env.get x >>= K) := by
  unfold Env.get
  rw [hx]
  exact Runs.undefined

theorem Runs.find {id : Nat} {o : Object} (ho : w.objects[id]? = some o) {K : Object → Eval α}
    (h : Runs P c w (K o)) : Runs P c w (Eval.find id >>= K) := by
  have hfind : Eval.find id w = ⟨[], .done o w⟩ := by
    unfold Eval.find
    rw [ho]
  exact Runs.quiet hfind rfl h

/-- The address of an array is loaded. -/
theorem Runs.arrayAddress (hP : P.Fits) (hprep : Prepared P depth homes offset S env c w)
    {l : Layout}
    (hlow : -2 ^ 31 ≤ l.offset) (hhigh : l.offset ≤ 0) {b : Option Nat}
    (hb : Bound P homes (c.fp + offset) c.fp c.mem l true b) {r : Reg} (hr : r = .ac ∨ r = .ac1)
    {t : String} (hi : P.code[c.pc]? = some (.rm l.storage.loadOp r l.offset l.base t)) {x : Eval α}
    (hunset : b = none → Runs P c w x)
    (h : ∀ s ∈ homes, b = some s.id → ∀ n, s.size = some n →
      Runs P (c.next.put r (Int64.ofInt s.base)) w x) : Runs P c w x := by
  have horigin := hprep.origin_eq l
  cases hb with
  | @array s n hs hstorage hsize hbase =>
    rw [hstorage] at hi
    apply Runs.address hP hprep.faithful hi hr hlow hhigh
    rw [horigin, ← hbase]
    exact h s hs rfl n hsize
  | @reference s n hs hstorage hsize hlocal hfloor hfree hread =>
    rw [hstorage] at hi
    apply Runs.load hP hprep.faithful hi hr hlow hhigh
    intro hpos
    have hcell : l.offset + c.origin l.isGlobal = l.offset + c.fp := by
      rw [hlocal]
      rfl
    rw [hcell] at hpos ⊢
    rw [hread hpos]
    exact h s hs rfl n hsize
  | unset hstorage => exact hunset rfl

/-- The value of a variable is loaded. -/
theorem Runs.loadVariable (hP : P.Fits) (hprep : Prepared P depth homes offset S env c w)
    {x n : String}
    {ty : Ty} {l : Layout} (hl : S.lookup x = some (.var n ty l)) {t : String}
    (hi : P.code[c.pc]? = some (.rm l.storage.loadOp .ac l.offset l.base t)) {K : Value → Eval α}
    (h : ∀ v c', c'.pc = c.pc + 1 → After P depth homes offset S env c c' w → v.Held homes c'.ac →
      v.OfTy ty → Runs P c' w (K v)) :
    Runs P c w (env.get x >>= fun id => Eval.find id >>= fun o => o.value id >>= K) := by
  obtain ⟨hlow, hhigh, b, hlookup, hb⟩ := hprep.names.objects x n ty l hl
  have hrep := hprep.faithful.represents
  cases harray : ty.isArray with
  | false =>
    rw [harray] at hb
    cases hb with
    | @cell s hs hstorage hsize hbase =>
      obtain ⟨content, ho, hcontent⟩ := hrep.cell hs hsize
      refine Runs.get hlookup (Runs.find ho ?_)
      cases content with
      -- nothing is promised for a cell that was never assigned
      | none => exact Runs.undefined
      | some a =>
        obtain ⟨hrange, hread⟩ := hcontent a rfl
        show Runs P c w (pure (.word a) >>= K)
        rw [pure_bind]
        rw [hstorage] at hi
        apply Runs.load hP hprep.faithful hi (Or.inl rfl) hlow hhigh
        intro hpos
        rw [hprep.origin_eq l, ← hbase] at hpos ⊢
        rw [hread hpos]
        exact h (.word a) _ rfl (hprep.of_eq rfl rfl rfl hrange.mild) ⟨rfl, hrange⟩ harray
  | true =>
    rw [harray] at hb
    apply Runs.arrayAddress hP hprep hlow hhigh hb (Or.inl rfl) hi
    · rintro rfl
      exact Runs.get_none hlookup
    · rintro s hs rfl k hsize
      obtain ⟨cells, ho, hlen, hpos, -⟩ := hrep.array hs hsize
      have htop := hrep.below s hs
      have hle := s.base_le_top
      have hmax := hP.top_lt
      refine Runs.get hlookup (Runs.find ho ?_)
      show Runs P _ w (pure (.array s.id) >>= K)
      rw [pure_bind]
      exact h (.array s.id) _ rfl
        (hprep.of_eq rfl rfl rfl (mild_of_nonneg (by omega) (by omega)))
        ⟨s, hs, rfl, ⟨k, hsize⟩, rfl⟩ harray

/-- The accumulator is assigned to a variable. -/
theorem Runs.assign (hP : P.Fits) (hprep : Prepared P depth homes offset S env c w) {x n : String}
    {ty : Ty} {l : Layout} (hl : S.lookup x = some (.var n ty l)) (hscalar : ty.isArray = false)
    {t : String} (hi : P.code[c.pc]? = some (.rm .st .ac l.offset l.base t)) (hrange : InRange c.ac)
    {K : Eval α} (h : ∀ c' w', c'.pc = c.pc + 1 → c'.ac = c.ac →
      After P depth homes offset S env c c' w' → Runs P c' w' K) :
    Runs P c w (env.get x >>= fun id => Eval.replace id (.cell (some c.ac)) >>= fun _ => K) := by
  obtain ⟨hlow, hhigh, b, hlookup, hb⟩ := hprep.names.objects x n ty l hl
  rw [hscalar] at hb
  cases hb with
  | @cell s hs hstorage hsize hbase =>
    refine Runs.get hlookup ?_
    apply Runs.store hP hprep.faithful hi hlow hhigh
    intro hpos
    rw [hprep.origin_eq l, ← hbase] at hpos ⊢
    refine Runs.quiet (b := ()) rfl rfl ?_
    refine h _ _ rfl rfl (hprep.after ?_ rfl ?_)
    · exact hprep.faithful.next.write hpos (hprep.faithful.represents.assign hs hsize hpos hrange)
    · exact Spared.write hpos (Or.inr ⟨s, hs, Int.le_refl _, s.base_le_top⟩) _ _

/-- The sign of the difference tells whether an index is below the length. -/
theorem index_sub_nonneg_iff {i : Word} (hi : InRange i) {n : Nat} (hn : (n : Int) < 2 ^ 60) :
    0 ≤ i - Int64.ofInt n ↔ (n : Int) ≤ i.toInt := by
  have hlen : (Int64.ofInt n).toInt = n := toInt_ofInt_of_lt (by omega) (by omega)
  unfold InRange at hi
  rw [Int64.le_iff_toInt_le, toInt_sub_of_range (by omega) (by omega), hlen]
  show (0 : Int) ≤ i.toInt - n ↔ (n : Int) ≤ i.toInt
  omega

namespace Object

theorem place_lower {cells : List (Option Word)} {index : Word} (h : index.toInt < 0) :
    (array cells).place index = Eval.stop (.bounds .lower) :=
  if_pos h

theorem place_upper {cells : List (Option Word)} {index : Word} (h : cells.length ≤ index.toInt) :
    (array cells).place index = Eval.stop (.bounds .upper) :=
  (if_neg (by omega)).trans (if_pos h)

theorem place_within {cells : List (Option Word)} {index : Word} {i : Nat} (hi : index.toInt = i)
    (h : i < cells.length) : (array cells).place index = pure i := by
  have hplace : (array cells).place index = pure index.toInt.toNat :=
    (if_neg (by omega)).trans (if_neg (by omega))
  rw [hplace, hi, Int.toNat_natCast]

end Object

/-- The index in the accumulator is checked and turned into the address of an element. -/
theorem Runs.elementAddress (hP : P.Fits) (hprep : Prepared P depth homes offset S env c w)
    {x n : String} {ty : Ty} {l : Layout} (hl : S.lookup x = some (.var n ty l))
    (harray : ty.isArray = true) {start : Nat} {is : List Instr} (his : ElementCode l start is)
    (hpc : c.pc = start) (hcode : Holds P.code start is) (hrange : InRange c.ac)
    {K : Nat → Object → Nat → Eval α}
    (h : ∀ s ∈ homes, ∀ size i cells c', s.size = some size → i < size →
      w.objects[s.id]? = some (.array cells) → c'.pc = start + 8 →
      c'.ac = Int64.ofInt (s.base + 1 + i) → c'.mem = c.mem →
      After P depth homes offset S env c c' w → Runs P c' w (K s.id (.array cells) i)) :
    Runs P c w (env.get x >>= fun id => Eval.find id >>= fun o =>
      o.place c.ac >>= fun i => K id o i) := by
  subst hpc
  obtain ⟨t₁, t₂, t₃, t₄, t₅, t₆, tooLarge, negative, hlarge, hneg, rfl⟩ := his.form
  simp only [holds_cons] at hcode
  obtain ⟨h₀, h₁, h₂, h₃, h₄, h₅, h₆, h₇, -⟩ := hcode
  obtain ⟨hlow, hhigh, b, hlookup, hb⟩ := hprep.names.objects x n ty l hl
  rw [harray] at hb
  have hrep := hprep.faithful.represents
  have hmild := hrange.mild
  apply Runs.arrayAddress hP hprep hlow hhigh hb (Or.inr rfl) h₀
  · rintro rfl
    exact Runs.get_none hlookup
  rintro s hs rfl size hsize
  obtain ⟨cells, ho, hlen, hpos, hlength, -⟩ := hrep.array hs hsize
  have htop := hrep.below s hs
  have hmax := hP.top_lt
  have hgp := hprep.faithful.gp_eq
  have hbase := Home.top_of_size hsize
  refine Runs.get hlookup (Runs.find ho ?_)
  -- the length is loaded and compared with the index
  have hloaded : After P depth homes offset S env c { c.next with ac1 := Int64.ofInt s.base } w :=
    hprep.of_eq rfl rfl rfl hmild
  refine Runs.step (fun t => Core.step_ld_ac1 hP.size_lt hloaded.prepared.faithful.sane rfl
    (by omega)
    (by show s.base ≤ c.gp; omega) (code_at h₁)) ?_
  show Runs P { c with pc := c.pc + 1 + 1, ac1 := c.mem.read s.base } w _
  rw [hlength]
  apply Runs.arithmetic (c := { c with pc := c.pc + 1 + 1, ac1 := Int64.ofInt size }) hP h₂
    (Or.inr rfl) (Or.inl rfl) (Or.inr rfl) rfl
  show Runs P { c with pc := c.pc + 1 + 1 + 1, ac1 := c.ac - Int64.ofInt size } w _
  have hiff := index_sub_nonneg_iff hrange (n := size) (by omega)
  apply Runs.branch_relative hP hlarge rfl h₃ (Or.inr rfl) rfl (by decide)
  · intro htaken
    have hupper : (size : Int) ≤ c.ac.toInt := hiff.mp (of_decide_eq_true htaken)
    refine Runs.fault hP (hprep.faithful.of_eq rfl rfl rfl hmild) (rfl : _ = faultEntry .upper) ?_
    rw [Object.place_upper (by omega), Eval.stop_bind]
    rfl
  intro htaken
  have hupper : c.ac.toInt < size := Int.not_le.mp (mt hiff.mpr (of_decide_eq_false htaken))
  apply Runs.branch_relative hP hneg rfl h₄ (Or.inl rfl) rfl (by decide)
  · intro htaken
    have hlower : c.ac < 0 := of_decide_eq_true htaken
    rw [Int64.lt_iff_toInt_lt, Int64.toInt_zero] at hlower
    refine Runs.fault hP (hprep.faithful.of_eq rfl rfl rfl hmild) (rfl : _ = faultEntry .lower) ?_
    rw [Object.place_lower hlower, Eval.stop_bind]
    rfl
  intro htaken
  have hlower : ¬c.ac < 0 := of_decide_eq_false htaken
  rw [Int64.lt_iff_toInt_lt, Int64.toInt_zero] at hlower
  -- the index is in bounds, and is added to the address of the first cell
  obtain ⟨i, hi⟩ : ∃ i : Nat, c.ac.toInt = i := ⟨c.ac.toInt.toNat, by omega⟩
  rw [Object.place_within hi (by omega), pure_bind]
  have hchecked : After P depth homes offset S env c
      { c with pc := c.pc + 1 + 1 + 1 + 1 + 1, ac1 := c.ac - Int64.ofInt size } w :=
    hprep.of_eq rfl rfl rfl hmild
  apply Runs.arrayAddress hP hchecked.prepared hlow hhigh hb (Or.inr rfl) h₅
  · intro hnone
    cases hnone
  intro s' hs' hid _ _
  obtain rfl : s = s' := by
    rcases hrep.apart s hs s' hs' with heq | ⟨hne, -⟩
    · exact heq
    · exact absurd (Option.some.inj hid) hne
  have hsum : Int64.ofInt s.base + c.ac = Int64.ofInt (s.base + i) := by
    rw [← hi, Int64.ofInt_add, Int64.ofInt_toInt]
  apply Runs.arithmetic
    (c := { c with pc := c.pc + 1 + 1 + 1 + 1 + 1 + 1, ac1 := Int64.ofInt s.base })
    hP h₆ (Or.inl rfl) (Or.inr rfl) (Or.inl rfl) (a := Int64.ofInt (s.base + i))
    (congrArg some hsum)
  have hsane : (Core.mk (c.pc + 1 + 1 + 1 + 1 + 1 + 1 + 1) (Int64.ofInt (s.base + i))
      (Int64.ofInt s.base) c.fp c.gp c.mem).Sane :=
    ⟨hprep.faithful.sane.fp_nonneg, hprep.faithful.sane.fp_le, hprep.faithful.sane.gp_lt,
      hprep.faithful.sane.size_eq⟩
  refine Runs.step (fun t => Core.step_lda_ac hP.size_lt hsane rfl (by omega)
    (by show s.base + i ≤ c.gp; omega) (code_at h₇)) ?_
  refine h s hs size i cells _ hsize (by omega) ho rfl ?_ rfl
    (hprep.of_eq rfl rfl rfl (mild_of_nonneg (by omega) (by omega)))
  show Int64.ofInt (s.base + i + 1) = Int64.ofInt (s.base + 1 + i)
  rw [Int.add_right_comm]

end Access

end MiniC
