import Mathlib.Data.List.Nodup
import MiniC.Proofs.CallSites

/-!
# Both layouts of a program

The first layout of a program finds out where the functions start, the second one links the calls.
Code has the same length in both, whatever the addresses are, so they agree about every address; and
the address that a call jumps to is that of the only function of its name that has a body.

* `Assembly.placed_program`: what the second layout records, and where
* `Program.Reaches`: a call leads to the function that it names
* `layouts_agree`: all of this, for every source that compiles
-/

namespace MiniC

/-! ### Names and addresses

Addresses are recorded under the names of functions with a body. In an accepted program no two of
these have one name, so a name stands for one address. -/

/-- The name that a declaration gives a body to. -/
def Decl.defined? : Decl → Option String
  | .var _ => none
  | .function f => if f.body.isSome then some f.name else none

theorem Decl.map_fst_table (start : Nat) (ds : List Decl) :
    (Decl.table start ds).map Prod.fst = ds.filterMap Decl.defined? := by
  induction ds generalizing start with
  | nil => rfl
  | cons d rest ih =>
    cases d with
    | var d => exact ih _
    | function f =>
      cases hbody : f.body with
      | none => simp [Decl.table, Decl.defined?, hbody, ih]
      | some body => simp [Decl.table, Decl.defined?, hbody, ih]

theorem Decl.defined?_check (S : ScopeTable) (next : Int) (d : Decl) :
    (d.check S next).value.defined? = d.defined? := by
  cases d with
  | var d => rfl
  | function f =>
    cases hbody : f.body with
    | none => simp only [Decl.check, FunDecl.check, Decl.defined?, hbody]
    | some body => simp only [Decl.check, FunDecl.check, Decl.defined?, hbody]; rfl

theorem Decl.defined?_checkAll (S : ScopeTable) (next : Int) (ds : List Decl) :
    (Decl.checkAll S next ds).value.filterMap Decl.defined? = ds.filterMap Decl.defined? := by
  induction ds generalizing S next with
  | nil => rfl
  | cons d rest ih => simp only [Decl.checkAll, List.filterMap_cons, Decl.defined?_check, ih]

theorem Decl.Entered.defined?_eq {d d' : Decl} (h : d.Entered d') : d'.defined? = d.defined? := by
  cases h with
  | var d => rfl
  | prototype f h => rfl
  | definition f entry h => rfl

theorem Decl.defined?_of_entered {ds ds' : List Decl} (h : List.Forall₂ Decl.Entered ds ds') :
    ds'.filterMap Decl.defined? = ds.filterMap Decl.defined? := by
  induction h with
  | nil => rfl
  | cons hd hrest ih => simp only [List.filterMap_cons, hd.defined?_eq, ih]

theorem Decl.exists_entered {ds ds' : List Decl} (h : List.Forall₂ Decl.Entered ds ds') {d' : Decl}
    (hd' : d' ∈ ds') : ∃ d ∈ ds, d.Entered d' := by
  induction h with
  | nil => cases hd'
  | cons hd hrest ih =>
    rcases List.mem_cons.mp hd' with rfl | hd'
    · exact ⟨_, List.mem_cons_self, hd⟩
    · obtain ⟨d, hmem, hentered⟩ := ih hd'
      exact ⟨d, List.mem_cons_of_mem _ hmem, hentered⟩

/-- Of the items that a partial function does not confuse, each is known by its image. -/
theorem eq_of_nodup_filterMap {α β : Type} {g : α → Option β} {l : List α}
    (h : (l.filterMap g).Nodup) {x y : α} (hx : x ∈ l) (hy : y ∈ l) {b : β} (hgx : g x = some b)
    (hgy : g y = some b) : x = y := by
  induction l with
  | nil => cases hx
  | cons z rest ih =>
    have hlater : ∀ u ∈ rest, g u = some b → g z ≠ some b := by
      intro u hu hgu hgz
      rw [List.filterMap_cons_some hgz, List.nodup_cons] at h
      exact h.1 (List.mem_filterMap.mpr ⟨u, hu, hgu⟩)
    have hrest : (rest.filterMap g).Nodup := by
      cases hgz : g z with
      | none => rwa [List.filterMap_cons_none hgz] at h
      | some c =>
        rw [List.filterMap_cons_some hgz] at h
        exact h.of_cons
    rcases List.mem_cons.mp hx with hxz | hx
    · rcases List.mem_cons.mp hy with hyz | hy
      · rw [hxz, hyz]
      · exact absurd (hxz ▸ hgx) (hlater y hy hgy)
    · rcases List.mem_cons.mp hy with hyz | hy
      · exact absurd (hyz ▸ hgy) (hlater x hx hgx)
      · exact ih hrest hx hy

/-- A name has one address. -/
theorem Compiles.pool_unique {source : String} {tree : Program} {code : List Instr}
    (h : Compiles source tree code) {name : String} {a b : Nat} (ha : (name, a) ∈ tree.pool)
    (hb : (name, b) ∈ tree.pool) : a = b := by
  obtain ⟨S, next, is, main, himage, -⟩ := h.image
  obtain ⟨hnew, hnodup⟩ := himage.laid.nodup_table ScopeTable.global_initial
  -- the routines have bodies from the start, so the table has no entry for them
  have hout : ScopeTable.initial.Defines "output" := ⟨_, _, _, rfl⟩
  have hin : ScopeTable.initial.Defines "input" := ⟨_, _, _, rfl⟩
  have hpool : (tree.pool.map Prod.fst).Nodup := by
    unfold Program.pool
    rw [List.map_append]
    refine hnodup.append (by decide) ?_
    intro x hx hroutine
    obtain ⟨y, hy, rfl⟩ := List.mem_map.mp hx
    simp only [List.map_cons, List.map_nil, List.mem_cons, List.not_mem_nil, or_false] at hroutine
    rcases hroutine with heq | heq
    · exact hnew y hy (by rw [heq]; exact hout)
    · exact hnew y hy (by rw [heq]; exact hin)
  have hpair := List.inj_on_of_nodup_map hpool ha hb rfl
  exact congrArg Prod.snd hpair

/-- What a table of addresses holds is found in it, if each name has one address. -/
theorem lookup_of_mem {pool entries : Entries}
    (hunique : ∀ {name a b}, (name, a) ∈ pool → (name, b) ∈ pool → a = b)
    (hsub : ∀ x ∈ entries, x ∈ pool) {name : String} {a : Nat} (h : (name, a) ∈ entries) :
    entries.lookup name = some a := by
  cases hl : entries.lookup name with
  | none =>
    have hne := List.lookup_eq_none_iff.mp hl (name, a) h
    simp at hne
  | some b =>
    rw [hunique (hsub _ (mem_of_lookup hl)) (hsub _ h)]

/-! ### One layout

What one layout leaves behind: a table with the functions of the program and the routines, and each
function in its place. -/

namespace Assembly

/-- The table after a layout: the functions with a body, the routines, and what was known before. -/
theorem entries_program {linked : Bool} {known : Entries} {tree p : Program} {a : Assembly}
    (hok : (analyze tree false).errors = []) (hknown : ∀ x ∈ known, x ∈ tree.pool)
    (hrun : Assembly.program linked known (analyze tree false).program = .ok (p, a)) :
    a.entries = (Decl.table bodyStart tree.decls).reverse ++
      ("output", outputEntry) :: ("input", inputEntry) :: known := by
  simp only [Assembly.program, Except.bind_eq_ok_iff, Except.pure_eq_ok_iff, Prod.exists] at hrun
  obtain ⟨a₀, hstart, ds, a₁, hdecls, a₂, hfinale, heq⟩ := hrun
  cases heq
  obtain ⟨t, hfull₀, hentries₀⟩ := Assembly.full_start hstart
  have hpool : ∀ x ∈ a₀.entries, x ∈ tree.pool := by
    rw [hentries₀]
    intro x hx
    rcases List.mem_cons.mp hx with rfl | hx
    · simp [Program.pool]
    rcases List.mem_cons.mp hx with rfl | hx
    · simp [Program.pool]
    · exact hknown x hx
  rw [errors_analyze] at hok
  rw [decls_analyze] at hdecls
  obtain ⟨is, -, hfull₁, hentries₁⟩ := Assembly.laid_declarations hok hdecls hfull₀ hpool
    (fun x hx => List.mem_append_left _ hx)
  obtain ⟨main, jump, -, -, -, -, hentries₂⟩ := Assembly.full_finale hfinale hfull₁
  rw [hentries₂, hentries₁, hentries₀]
  rfl

/-- A layout records the addresses that can be called, and no others. -/
theorem mem_entries_iff {linked : Bool} {known : Entries} {tree p : Program} {a : Assembly}
    (hok : (analyze tree false).errors = []) (hknown : ∀ x ∈ known, x ∈ tree.pool)
    (hrun : Assembly.program linked known (analyze tree false).program = .ok (p, a))
    {x : String × Nat} : x ∈ a.entries ↔ x ∈ tree.pool := by
  have hpool : x ∈ tree.pool ↔ x ∈ Decl.table bodyStart tree.decls ∨ x = ("output", outputEntry) ∨
      x = ("input", inputEntry) := by
    simp only [Program.pool, List.mem_append, List.mem_cons, List.not_mem_nil, or_false]
  rw [entries_program hok hknown hrun, List.mem_append, List.mem_reverse, List.mem_cons,
    List.mem_cons, ← or_assoc, ← or_assoc, or_assoc (a := x ∈ Decl.table bodyStart tree.decls),
      ← hpool]
  exact or_iff_left_of_imp (hknown x)

/-- The layout that links calls: it records addresses and changes nothing else, and every function
lies where it says. -/
theorem placed_program {known : Entries} {q p : Program} {a : Assembly}
    (hrun : Assembly.program true known q = .ok (p, a)) {code : List Instr}
    (hfinish : a.buffer.finish = .ok code) :
    p.globalsEnd = q.globalsEnd ∧ List.Forall₂ Decl.Entered q.decls p.decls ∧
      (∀ f body, .function f ∈ p.decls → f.body = some body →
        ∃ entry k is, f.Placed a.entries code body entry k is) ∧
      ∃ main jump, a.entries.lookup "main" = some main ∧
        Instr.relative .lda .pc (code.length - 3) main "jump to main loc" = .ok jump ∧
        code[code.length - 3]? = some jump := by
  simp only [Assembly.program, Except.bind_eq_ok_iff, Except.pure_eq_ok_iff, Prod.exists] at hrun
  obtain ⟨a₀, hstart, ds, a₁, hdecls, a₂, hfinale, heq⟩ := hrun
  cases heq
  obtain ⟨t, hfull₀, -⟩ := Assembly.full_start hstart
  obtain ⟨js, hfull₁, -, hentered, hplaced⟩ := Assembly.placed_declarations hdecls hfull₀
  obtain ⟨main, jump, hmain, -, hjump, hfull₂, hentries⟩ := Assembly.full_finale hfinale hfull₁
  rw [hfull₂.finish] at hfinish
  cases hfinish
  refine ⟨rfl, hentered, ?_, main, jump, ?_, ?_, ?_⟩
  · intro f body hmem hbody
    obtain ⟨entry, k, is, h⟩ := hplaced f body hmem hbody
    exact ⟨entry, k, is, h.mono (fun x hx => by rw [hentries]; exact hx) _⟩
  · rw [hentries]
    exact hmain
  -- the jump is the third instruction from the end
  · rw [List.length_append]
    exact hjump
  · rw [List.length_append, List.getElem?_append_right (by simp [callSequence]), callSequence]
    simp

end Assembly

/-! ### Both layouts

The second layout starts from the table of the first one, and finds the same addresses, since code
has the same length whatever they are. -/

/-- Calls of this name lead to this address: that of a routine, or the one recorded by the only
function of the name that has a body. -/
inductive Program.Target (p : Program) : String → Nat → Prop where
  | input : Target p "input" inputEntry
  | output : Target p "output" outputEntry
  | function (f : FunDecl) (entry : Nat) (hf : f ∈ p.functions) (hbody : f.body ≠ none)
      (hentry : f.entry = some entry)
      (unique : ∀ g ∈ p.functions, g.body ≠ none → g.name = f.name → g = f) : Target p f.name entry

/-- The jump of the call, which is relative to the instruction behind it, leads to the function that
the call names. -/
def Program.Reaches (p : Program) (code : List Instr) (site : CallSite) : Prop :=
  ∃ (d : Int) (t : String) (entry : Nat), code[site.address]? = some (.rm .lda .pc d .pc t) ∧
    (site.address : Int) + 1 + d = entry ∧ p.Target site.callee entry

/-- What two layouts of the analysed program `q` come to: the code, and the program `p` with the
addresses of its functions. -/
structure Layouts (q p : Program) (first second : Assembly) (code : List Instr) : Prop where
  collects : ∃ q', Assembly.program false [] q = .ok (q', first)
  links : Assembly.program true first.entries q = .ok (p, second)
  finishes : second.buffer.finish = .ok code
  /-- Code has the same length in both. -/
  length_first : first.buffer.highWater = code.length
  length_second : second.buffer.highWater = code.length
  /-- Both give every function the same address. -/
  entries : ∀ name, first.entries.lookup name = second.entries.lookup name
  /-- Nothing is changed but the recorded addresses. -/
  globalsEnd_eq : p.globalsEnd = q.globalsEnd
  entered : List.Forall₂ Decl.Entered q.decls p.decls
  /-- Each function with a body lies at the address that it records, and the instruction in front
  of it jumps to the address behind it. -/
  functions : ∀ f ∈ p.functions, ∀ body, f.body = some body → ∃ entry is d t t',
    f.entry = some entry ∧ first.entries.lookup f.name = some entry ∧
    f.code ⟨second.entries, true⟩ entry body = .ok is ∧ Holds code entry is ∧
    code[entry]? = some (.rm .st .ac returnOffset .fp t) ∧
    0 < entry ∧ code[entry - 1]? = some (.rm .lda .pc d .pc t') ∧
    ((entry - 1 : Nat) : Int) + 1 + d = entry + is.length
  /-- Every call leads to the function that it names. -/
  calls : ∀ f ∈ p.functions, ∀ site ∈ f.calls, p.Reaches code site
  main : p.Reaches code ⟨code.length - 3, "main"⟩

section Layouts

variable {source : String} {tree : Program} {code : List Instr}

theorem Program.mem_functions {p : Program} {f : FunDecl} :
    f ∈ p.functions ↔ .function f ∈ p.decls := by
  unfold Program.functions
  rw [List.mem_filterMap]
  constructor
  · rintro ⟨d, hd, hf⟩
    cases d with
    | var d => cases hf
    | function g =>
      cases hf
      exact hd
  · intro h
    exact ⟨_, h, rfl⟩

/-- No two functions of the program with addresses have the same name and both a body. -/
theorem Compiles.function_unique (h : Compiles source tree code) {p : Program}
    (hentered : List.Forall₂ Decl.Entered (analyze tree false).program.decls p.decls)
    {f g : FunDecl}
    (hf : f ∈ p.functions) (hg : g ∈ p.functions) (hfb : f.body ≠ none) (hgb : g.body ≠ none)
    (hname : g.name = f.name) : g = f := by
  obtain ⟨S, next, is, main, himage, -⟩ := h.image
  obtain ⟨-, hnodup⟩ := himage.laid.nodup_table ScopeTable.global_initial
  have hnames : (p.decls.filterMap Decl.defined?).Nodup := by
    rw [Decl.defined?_of_entered hentered, decls_analyze, Decl.defined?_checkAll,
      ← Decl.map_fst_table bodyStart]
    exact hnodup
  have hgf : Decl.function g = Decl.function f := by
    refine eq_of_nodup_filterMap hnames (Program.mem_functions.mp hg) (Program.mem_functions.mp hf)
      (b := f.name) ?_ ?_
    · simp [Decl.defined?, Option.isSome_iff_ne_none.mpr hgb, hname]
    · simp [Decl.defined?, Option.isSome_iff_ne_none.mpr hfb]
  exact Decl.function.inj hgf

/-- Every address that can be called is that of a routine or of a function in its place. -/
theorem Compiles.target (h : Compiles source tree code) {p : Program} {table : Entries}
    (hentered : List.Forall₂ Decl.Entered (analyze tree false).program.decls p.decls)
    (hplaced : ∀ f body, .function f ∈ p.decls → f.body = some body →
      ∃ entry k is, f.Placed table code body entry k is)
    (htable : ∀ x ∈ table, x ∈ tree.pool) {name : String} {entry : Nat}
    (hmem : (name, entry) ∈ tree.pool) : p.Target name entry := by
  rcases List.mem_append.mp hmem with hbody | hroutine
  · have hname : name ∈ p.decls.filterMap Decl.defined? := by
      rw [Decl.defined?_of_entered hentered, decls_analyze, Decl.defined?_checkAll,
        ← Decl.map_fst_table bodyStart]
      exact List.mem_map_of_mem hbody
    obtain ⟨d, hd, hdefined⟩ := List.mem_filterMap.mp hname
    cases d with
    | var d => cases hdefined
    | function f =>
      obtain ⟨hsome, rfl⟩ : f.body.isSome = true ∧ f.name = name := by
        simpa [Decl.defined?] using hdefined
      obtain ⟨body, hfb⟩ := Option.isSome_iff_exists.mp hsome
      obtain ⟨entry', k, is, hf⟩ := hplaced f body hd hfb
      obtain rfl := h.pool_unique (htable _ hf.known) hmem
      have hne : f.body ≠ none := Option.isSome_iff_ne_none.mp hsome
      exact .function f entry' (Program.mem_functions.mpr hd) hne hf.entry_eq fun g hg hgb hgn =>
        h.function_unique hentered (Program.mem_functions.mpr hd) hg hne hgb hgn
  · simp only [List.mem_cons, List.not_mem_nil, or_false, Prod.mk.injEq] at hroutine
    rcases hroutine with ⟨rfl, rfl⟩ | ⟨rfl, rfl⟩
    · exact .output
    · exact .input

/-- A layout finds the address of every name that can be called, and of no other name. -/
theorem Compiles.lookup_iff (h : Compiles source tree code) {linked : Bool} {known : Entries}
    {p : Program} {a : Assembly} (hknown : ∀ x ∈ known, x ∈ tree.pool)
    (hrun : Assembly.program linked known (analyze tree false).program = .ok (p, a)) {name : String}
    {entry : Nat} : a.entries.lookup name = some entry ↔ (name, entry) ∈ tree.pool := by
  have hmem : ∀ {x}, x ∈ a.entries ↔ x ∈ tree.pool :=
    Assembly.mem_entries_iff h.accepted hknown hrun
  constructor
  · intro hlookup
    exact hmem.mp (mem_of_lookup hlookup)
  · intro hpool
    exact lookup_of_mem h.pool_unique (fun _ hx => hmem.mp hx) (hmem.mpr hpool)

/-- A jump that is found in the code leads to its target, if that is an address of the code. -/
theorem Compiles.jump_eq (h : Compiles source tree code) {target address : Nat} {jump : Instr}
    {t : String} (htarget : target ≤ code.length)
    (hrel : Instr.relative .lda .pc address target t = .ok jump)
    (hget : code[address]? = some jump) :
    code[address]? = some (.rm .lda .pc (target - (address + 1)) .pc t) := by
  obtain ⟨S, next, is, main, himage, -⟩ := h.image
  have hsize := himage.size
  obtain ⟨hlt, -⟩ := List.getElem?_eq_some_iff.mp hget
  rw [hget, Instr.relative_eq_ok hrel (by omega) (by omega)]

theorem Compiles.pool_le (h : Compiles source tree code) {name : String} {entry : Nat}
    (hmem : (name, entry) ∈ tree.pool) : entry ≤ code.length := by
  obtain ⟨S, next, is, main, himage, -⟩ := h.image
  obtain ⟨t, hfinale⟩ := himage.finale
  have hbound := hfinale.bound (by simp [callSequence])
  have hlt := Program.pool_lt hmem
  have hlen := himage.laid.length_eq
  simp only at hlt
  omega

/-- The calls of a function in its place are linked by entries of the table. -/
theorem Compiles.links (h : Compiles source tree code) {p : Program} {table : Entries}
    (hentered : List.Forall₂ Decl.Entered (analyze tree false).program.decls p.decls)
    (hplaced : ∀ f body, .function f ∈ p.decls → f.body = some body →
      ∃ entry k is, f.Placed table code body entry k is) {f : FunDecl} (hf : .function f ∈ p.decls)
    {site : CallSite} (hsite : site ∈ f.calls) :
    ∃ k : Linker, k.strict = true ∧ (∀ x ∈ k.entries, x ∈ table) ∧ k.Links code site := by
  cases hbody : f.body with
  | none =>
    unfold FunDecl.calls at hsite
    rw [hbody] at hsite
    split at hsite
    · rename_i hnone
      cases hnone
    · cases hsite
  | some body =>
    obtain ⟨entry, k, is, hplace⟩ := hplaced f body hf hbody
    refine ⟨k, hplace.strict, hplace.linked, ?_⟩
    simp only [FunDecl.calls, hplace.entry_eq, hbody] at hsite
    -- the function was accepted before its address was recorded
    obtain ⟨d, hd, hd'⟩ := Decl.exists_entered hentered hf
    cases hd' with
    | prototype f hnone =>
      rw [hbody] at hnone
      cases hnone
    | definition f₀ entry' hne =>
      rw [decls_analyze] at hd
      obtain ⟨g, S, next, -, hok, rfl⟩ := Decl.mem_checkAll h.checked hd
      exact FunDecl.links hok hbody hplace.code_eq hplace.holds site hsite

/-- Both layouts of a program agree, and every call is linked to the function that it names. -/
theorem layouts_agree (h : Compiles source tree code) :
    ∃ p first second, generate (analyze tree false).program = .ok (p, code) ∧
      Layouts (analyze tree false).program p first second code := by
  obtain ⟨p, hgen⟩ := h.generated
  have hpasses := hgen
  simp only [generate, Except.bind_eq_ok_iff, Except.pure_eq_ok_iff, Prod.exists] at hpasses
  obtain ⟨p₁, first, hfirst, p₂, second, hsecond, code', hfinish, heq⟩ := hpasses
  cases heq
  obtain ⟨is₁, t₁, main₁, jump₁, hlaid₁, -, -, -, hfull₁, hpool₁⟩ :=
    Assembly.laid_program h.accepted (fun x hx => absurd hx List.not_mem_nil) hfirst
  obtain ⟨is₂, t₂, main₂, jump₂, hlaid₂, -, -, -, hfull₂, hpool₂⟩ :=
    Assembly.laid_program h.accepted hpool₁ hsecond
  have hcode : second.buffer.highWater = code.length := by
    rw [hfull₂.finish] at hfinish
    cases hfinish
    exact hfull₂.size_eq
  obtain ⟨hglobals, hentered, hplaced, main, jump, hmain, hjump, hget⟩ :=
    Assembly.placed_program hsecond hfinish
  -- both layouts find the same addresses, although the second starts from those of the first
  have hlookup₁ : ∀ {name a}, first.entries.lookup name = some a ↔ (name, a) ∈ tree.pool :=
    h.lookup_iff (fun x hx => absurd hx List.not_mem_nil) hfirst
  have hlookup₂ : ∀ {name a}, second.entries.lookup name = some a ↔ (name, a) ∈ tree.pool :=
    h.lookup_iff hpool₁ hsecond
  -- calls in functions and the call of `main` are linked in the same way
  have hreaches : ∀ {site : CallSite} {entry jump t}, (site.callee, entry) ∈ tree.pool →
      Instr.relative .lda .pc site.address entry t = .ok jump → code[site.address]? = some jump →
      p.Reaches code site := by
    intro site entry jump t hmem hrel hget
    exact ⟨_, _, entry, h.jump_eq (h.pool_le hmem) hrel
      hget, by omega, h.target hentered hplaced hpool₂ hmem⟩
  refine ⟨p, first, second, hgen, ⟨⟨p₁, hfirst⟩, hsecond, hfinish, ?_, hcode, ?_, hglobals,
    hentered, ?_, ?_, ?_⟩⟩
  · rw [← hcode]
    show first.buffer.slots.size = second.buffer.slots.size
    rw [hfull₁.size_eq, hfull₂.size_eq]
    simp only [List.length_append, List.length_cons, hlaid₁.length_eq, hlaid₂.length_eq,
      callSequence]
  · intro name
    exact Option.ext fun a => hlookup₁.trans hlookup₂.symm
  · intro f hf body hbody
    obtain ⟨entry, k, is, hplace⟩ := hplaced f body (Program.mem_functions.mp hf) hbody
    have hextends : Linker.Extends ⟨second.entries, true⟩ k := by
      intro callee here target hentry
      have hknown := hpool₂ _ (hplace.linked _ (Linker.mem_of_entry hplace.strict hentry))
      rw [Linker.entry, hlookup₂.mpr hknown]
    obtain ⟨i, hrel, hgot⟩ := hplace.jump
    obtain ⟨hstore, hend⟩ := hplace.store
    have hpos := hplace.pos
    exact ⟨entry, is, _, _, _, hplace.entry_eq, hlookup₁.mpr (hpool₂ _ hplace.known),
      FunDecl.code_extends hextends hplace.code_eq, hplace.holds, hstore, hpos,
      h.jump_eq hend hrel hgot, by omega⟩
  · intro f hf site hsite
    obtain ⟨k, hk, hlinked, here, target, jump, hentry, hrel, hgot⟩ :=
      h.links hentered hplaced (Program.mem_functions.mp hf) hsite
    exact hreaches (hpool₂ _ (hlinked _ (Linker.mem_of_entry hk hentry))) hrel hgot
  · exact hreaches (hpool₂ _ (mem_of_lookup hmain)) hjump hget

end Layouts

/-- A program that calls a function before and inside its body. -/
def forwardSource : String :=
  "int twice(int x); void main(void) { output(twice(input())); } " ++
    "int twice(int x) { if (x < 0) return twice(-x); return x + x; }"

/-- The functions that are called in a source, in the order of the calls. -/
def calledIn (source : String) : Option (List String) :=
  (parse source).toOption.bind fun tree =>
    (generate (analyze tree false).program).toOption.map fun (p, _) =>
      (p.functions.flatMap FunDecl.calls).map CallSite.callee

theorem layouts_agree_forward : ∃ tree code p first second, Compiles forwardSource tree code ∧
    generate (analyze tree false).program = .ok (p, code) ∧
    (p.functions.flatMap FunDecl.calls).map CallSite.callee =
      ["input", "twice", "output", "twice"] ∧
    Layouts (analyze tree false).program p first second code := by
  have hascii : Ascii forwardSource _ := .append ⟨rfl, rfl⟩ ⟨rfl, rfl⟩
  have hsome : (compile? forwardSource).isSome = true := by
    rw [compile?, parse, hascii.scan_eq]
    decide +kernel
  have hcalls : calledIn forwardSource = some ["input", "twice", "output", "twice"] := by
    rw [calledIn, parse, hascii.scan_eq]
    decide +kernel
  have hshort : forwardSource.utf8ByteSize < 2 ^ 27 := by
    rw [hascii.utf8ByteSize_eq]
    decide +kernel
  obtain ⟨⟨tree, code⟩, hcompile⟩ := Option.isSome_iff_exists.mp hsome
  have h := compiles_of_compile? hshort hcompile
  obtain ⟨p, first, second, hgen, hlayouts⟩ := layouts_agree h
  refine ⟨tree, code, p, first, second, h, hgen, ?_, hlayouts⟩
  unfold calledIn at hcalls
  rw [h.parsed] at hcalls
  simpa only [Except.toOption, Option.bind_some, hgen, Option.map_some,
    Option.some.injEq] using hcalls

end MiniC
