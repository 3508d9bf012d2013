import MiniC.Proofs.Patching
import MiniC.Proofs.Scopes
import MiniC.Proofs.Sizes

/-!
# Where the code of a program lies

The code of an accepted program is the fixed code, then the code of its declarations in order,
then the call of `main`. Both layouts give a function the same address, so every call is linked to
the code of a function of the called name.

* `Compiles`: a short source that is accepted and for which code is generated
* `Laid`: the declarations of a program, with the scopes and the code of each
* `Compiles.image`: the parts of the generated code
-/

namespace MiniC

/-! ### Declarations of a program

What the layout of declarations has made, as a relation with a case for each kind of declaration:
the scopes and offsets of the analysis on one side, the code and the addresses on the other. -/

/-- The functions with a body among the declarations that start at an address, with the addresses
of their code. -/
def Decl.table (start : Nat) : List Decl → Entries
  | [] => []
  | .var d :: rest => Decl.table (start + (Decl.var d).size) rest
  | .function f :: rest =>
    match f.body with
    | none => Decl.table start rest
    | some _ => (f.name, start + 1) :: Decl.table (start + (Decl.function f).size) rest

/-- A function with a body that is accepted in the scopes `S`, and its code at the address `entry`
behind the store of the return address. -/
structure FunDecl.Defined (linked : Bool) (pool : Entries) (S : ScopeTable) (next : Int)
    (f : FunDecl) (body : Block) (entry : Nat) (S₁ : ScopeTable) (is : List Instr) : Prop where
  body_eq : f.body = some body
  announced : f.announce? S = some S₁
  scopes_eq : (f.check S next).scopes = S₁
  next_eq : (f.check S next).next = next
  emitted : ∃ Sp np ps frameEnd k checked,
    Declares frameLevel S₁.enter firstFrameOffset f.params Sp np ps ∧
    k.strict = linked ∧ (∀ x ∈ k.entries, x ∈ pool) ∧
    (Stmt.block body.pos body.decls body.stmts).Emits ⟨f.name, f.result⟩ Sp np k frameEnd
      (entry + 1) frameEnd is ∧
    (f.check S next).value.body = some checked ∧
    ((Stmt.block body.pos body.decls body.stmts).check ⟨f.name, f.result⟩ Sp np).value
      = .block checked.pos checked.decls checked.stmts

/-- The code of a function: it stores its return address, and returns at its end. -/
def FunDecl.framed (f : FunDecl) (is : List Instr) : List Instr :=
  .rm .st .ac returnOffset .fp s!"{f.name}: store return" :: (is ++ [returnInstr])

/-- A function takes its code and the jump around it. -/
theorem FunDecl.Defined.length_framed {linked : Bool} {pool : Entries} {S S₁ : ScopeTable}
    {next : Int}
    {f : FunDecl} {body : Block} {entry : Nat} {is : List Instr}
    (h : f.Defined linked pool S next body entry S₁ is) :
    (f.framed is).length + 1 = (Decl.function f).size := by
  obtain ⟨_, _, _, _, _, _, -, -, -, hemits, -, -⟩ := h.emitted
  have hlen := hemits.length_eq
  simp only [Stmt.size] at hlen
  simp only [FunDecl.framed, List.length_cons, List.length_append, List.length_nil, Decl.size,
    h.body_eq]
  omega

/-- The declarations are accepted in order, and laid out from the address `start`. -/
inductive Laid (linked : Bool) (pool : Entries) :
    ScopeTable → Int → Nat → List Decl → ScopeTable → Int → List Instr → Prop where
  | nil (S : ScopeTable) (next : Int) (start : Nat) : Laid linked pool S next start [] S next []
  | var {S S₁ S₂ : ScopeTable} {next next₂ : Int} {start : Nat} {d : VarDecl} {l : Layout}
      {rest : List Decl} {is : List Instr} (hd : d.Accepted globalLevel S next S₁ l)
      (hcheck : (Decl.var d).check S next
        = ⟨.var { d with layout := some l }, S₁, l.offset - 1, [], []⟩)
      (hrest : Laid linked pool S₁ (l.offset - 1) (start + d.shape.size) rest S₂ next₂ is) :
      Laid linked pool S next start (.var d :: rest) S₂ next₂
        ({ d with layout := some l }.lengthCode .gp ++ is)
  | prototype {S S₁ S₂ : ScopeTable} {next next₂ : Int} {start : Nat} {f : FunDecl}
      {rest : List Decl} {is : List Instr} (hbody : f.body = none)
      (hann : f.announce? S = some S₁) (hscopes : (f.check S next).scopes = S₁)
      (hnext : (f.check S next).next = next) (hvalue : (f.check S next).value.body = none)
      (hrest : Laid linked pool S₁ next start rest S₂ next₂ is) :
      Laid linked pool S next start (.function f :: rest) S₂ next₂ is
  | definition {S S₁ S₂ : ScopeTable} {next next₂ : Int} {start : Nat} {f : FunDecl}
      {body : Block} {code is : List Instr} {jump : Instr} {rest : List Decl}
      (hdef : f.Defined linked pool S next body (start + 1) S₁ code)
      (hjump : Instr.relative .lda .pc start (start + 1 + (f.framed code).length)
        s!"jump around {f.name} body" = .ok jump)
      (hrest : Laid linked pool S₁ next (start + 1 + (f.framed code).length) rest S₂ next₂ is) :
      Laid linked pool S next start (.function f :: rest) S₂ next₂
        (jump :: (f.framed code ++ is))

/-! ### Assembly

The assembler writes into a buffer. When it answers without a fault, what it has written is laid out
in the sense of `Laid`. -/

namespace Assembly

/-- A function with a body, accepted and laid out. -/
theorem laid_definition {linked : Bool} {pool : Entries} {S : ScopeTable} {next : Int}
    {f : FunDecl} {body : Block} {a a' : Assembly} {d : Decl} {l : List Instr}
    (hbody : f.body = some body) (hok : (f.check S next).errors = [])
    (hrun : declaration linked a (.function (f.check S next).value) = .ok (d, a'))
    (hfull : a.buffer.Full l) (hpool : ∀ x ∈ a.entries, x ∈ pool)
    (hself : (f.name, l.length + 1) ∈ pool) :
    ∃ S₁ code jump, f.Defined linked pool S next body (l.length + 1) S₁ code ∧
      Instr.relative .lda .pc l.length (l.length + 1 + (f.framed code).length)
        s!"jump around {f.name} body" = .ok jump ∧
      a'.buffer.Full (l ++ jump :: f.framed code) ∧
      a'.entries = (f.name, l.length + 1) :: a.entries := by
  simp only [FunDecl.check, hbody] at hok hrun
  simp only [List.append_eq_nil_iff, demand_eq_nil] at hok
  obtain ⟨⟨⟨hann, hparams⟩, hblock⟩, -⟩ := hok
  obtain ⟨S₁, hS₁⟩ := Option.isSome_iff_exists.mp hann
  simp only [hS₁, Option.getD_some] at hparams hblock hrun
  rw [declaration_eq hfull.atEnd rfl] at hrun
  simp only [Except.bind_eq_ok_iff, Except.pure_eq_ok_iff, hfull.cursor_eq] at hrun
  obtain ⟨is, his, jump, hjump, heq⟩ := hrun
  cases heq
  simp only [FunDecl.code, Except.bind_eq_ok_iff, Except.pure_eq_ok_iff] at his
  obtain ⟨code, hcode, rfl⟩ := his
  refine ⟨S₁, code, jump, ⟨hbody, hS₁, ?_, ?_, ?_⟩, hjump, hfull.emitAll _, rfl⟩
  · simp only [FunDecl.check, hbody, hS₁, Option.getD_some]
  · simp only [FunDecl.check, hbody]
  · have hvalue : (f.check S next).value.body = some (body.check ⟨f.name, f.result⟩
        (VarDecl.checkAll .param frameLevel S₁.enter firstFrameOffset f.params).scopes
        (VarDecl.checkAll .param frameLevel S₁.enter firstFrameOffset f.params).next).value := by
      simp only [FunDecl.check, hbody, hS₁, Option.getD_some]
    -- inside its body a function already knows its own address
    refine ⟨_, _, _, _, ⟨(f.name, l.length + 1) :: a.entries, linked⟩, _,
      declares_of_checkAll hparams, rfl, ?_, ⟨hblock, rfl, hcode⟩, hvalue, rfl⟩
    intro x hx
    rcases List.mem_cons.mp hx with rfl | hx
    · exact hself
    · exact hpool x hx

/-- Accepted declarations are laid out one behind the other, and record their addresses. -/
theorem laid_declarations {linked : Bool} {pool : Entries} {S : ScopeTable} {next : Int}
    {ds ds' : List Decl} {a a' : Assembly} {l : List Instr}
    (hok : (Decl.checkAll S next ds).errors = [])
    (hrun : declarations linked a (Decl.checkAll S next ds).value = .ok (ds', a'))
    (hfull : a.buffer.Full l) (hpool : ∀ x ∈ a.entries, x ∈ pool)
    (htable : ∀ x ∈ Decl.table l.length ds, x ∈ pool) :
    ∃ is, Laid linked pool S next l.length ds (Decl.checkAll S next ds).scopes
        (Decl.checkAll S next ds).next is ∧
      a'.buffer.Full (l ++ is) ∧
      a'.entries = (Decl.table l.length ds).reverse ++ a.entries := by
  -- the rest is analysed and emitted in the scopes and behind the code that the first one leaves,
  -- so these are generalized
  induction ds generalizing S next a l ds' with
  | nil =>
    simp only [Decl.checkAll, declarations, Except.pure_eq_ok_iff] at hrun
    cases hrun
    exact ⟨[], .nil S next l.length, by simpa using hfull, by simp [Decl.table]⟩
  | cons d rest ih =>
    simp only [Decl.checkAll, List.append_eq_nil_iff] at hok hrun ⊢
    simp only [declarations, Except.bind_eq_ok_iff, Except.pure_eq_ok_iff, Prod.exists] at hrun
    obtain ⟨d', a₁, hfirst, rest', a₂, hothers, heq⟩ := hrun
    cases heq
    cases d with
    | var d =>
      simp only [Decl.check] at hok hfirst hothers ⊢
      obtain ⟨hacc, hnext, hvalue⟩ := VarDecl.accepted_of_check hok.1
      have hcheck : (Decl.var d).check S next
          = ⟨.var { d with layout := (some (d.place globalLevel next).layout) },
            (d.check .var globalLevel S next).scopes,
            (d.place globalLevel next).layout.offset - 1, [], []⟩ := by
        simp only [Decl.check, hok.1, hnext, hvalue]
      simp only [declaration, Except.pure_eq_ok_iff] at hfirst
      cases hfirst
      rw [hvalue] at hothers
      rw [hnext] at hothers hok ⊢
      have hlen : (l ++ VarDecl.lengthCode { d with
        layout := some (d.place globalLevel next).layout }
          .gp).length = l.length + d.shape.size := by
        rw [List.length_append, VarDecl.length_lengthCode hacc]
      have hrec := ih hok.2 hothers (hfull.emitAll _) hpool
      rw [hlen] at hrec
      obtain ⟨is, hlaid, hfull', hentries⟩ := hrec htable
      exact ⟨_, .var hacc hcheck hlaid, by rw [← List.append_assoc]; exact hfull', hentries⟩
    | function f =>
      cases hbody : f.body with
      | none =>
        have hann : (f.announce? S).isSome = true := by
          simp only [Decl.check, FunDecl.check, hbody, List.append_eq_nil_iff, demand_eq_nil] at hok
          exact hok.1.1
        obtain ⟨S₁, hS₁⟩ := Option.isSome_iff_exists.mp hann
        have hscopes : (f.check S next).scopes = S₁ := by
          simp only [FunDecl.check, hbody, hS₁, Option.getD_some]
        have hnext : (f.check S next).next = next := by
          simp only [FunDecl.check, hbody]
        have hvalue : (f.check S next).value.body = none := by
          simp only [FunDecl.check, hbody]
        simp only [Decl.check] at hok hfirst hothers ⊢
        simp only [hscopes, hnext] at hok hothers ⊢
        simp only [declaration, hvalue, Except.pure_eq_ok_iff] at hfirst
        cases hfirst
        simp only [Decl.table, hbody] at htable ⊢
        obtain ⟨is, hlaid, hfull', hentries⟩ := ih hok.2 hothers hfull hpool htable
        exact ⟨is, .prototype hbody hS₁ hscopes hnext hvalue hlaid, hfull', hentries⟩
      | some body =>
        simp only [Decl.check] at hok hfirst hothers ⊢
        simp only [Decl.table, hbody, List.mem_cons, forall_eq_or_imp] at htable ⊢
        obtain ⟨S₁, code, jump, hdef, hjump, hfull₁, hentries₁⟩ :=
          laid_definition hbody hok.1 hfirst hfull hpool htable.1
        rw [hdef.scopes_eq, hdef.next_eq] at hok hothers ⊢
        have hlen : (l ++ jump :: f.framed code).length = l.length + (Decl.function f).size := by
          rw [List.length_append, List.length_cons, hdef.length_framed]
        have hrec := ih (a := a₁) hok.2 hothers hfull₁ ?_
        · rw [hlen] at hrec
          obtain ⟨is, hlaid, hfull', hentries⟩ := hrec htable.2
          refine ⟨jump :: (f.framed code ++ is), .definition hdef hjump ?_, ?_, ?_⟩
          · rw [Nat.add_assoc, Nat.add_comm 1, hdef.length_framed]
            exact hlaid
          · simpa using hfull'
          · rw [hentries, hentries₁]
            simp
        -- the entry that was added is one of the table, and so in the pool
        · rw [hentries₁]
          intro x hx
          rcases List.mem_cons.mp hx with rfl | hx
          · exact htable.1
          · exact hpool x hx

end Assembly

/-! ### Programs

The code of a source is that of its second layout. It is put together from the fixed code, the laid
out declarations and the call of `main`, and every address that a call can be linked to is in one
table. -/

/-- A short source whose program is accepted, and for which code is generated. -/
structure Compiles (source : String) (tree : Program) (code : List Instr) : Prop where
  short : source.utf8ByteSize < 2 ^ 27
  parsed : parse source = .ok tree
  accepted : (analyze tree false).errors = []
  generated : ∃ p, generate (analyze tree false).program = .ok (p, code)

theorem Compiles.checked {source : String} {tree : Program} {code : List Instr}
    (h : Compiles source tree code) : (Decl.checkAll .initial 0 tree.decls).errors = [] :=
  (errors_analyze tree false).symm.trans h.accepted

/-- The tree and the code of an accepted source. -/
def compile? (source : String) : Option (Program × List Instr) :=
  match parse source with
  | .error _ => none
  | .ok tree =>
    let analysed := analyze tree false
    if analysed.errors.isEmpty then
      match generate analysed.program with
      | .error _ => none
      | .ok (_, code) => some (tree, code)
    else none

theorem compiles_of_compile? {source : String} {tree : Program} {code : List Instr}
    (hshort : source.utf8ByteSize < 2 ^ 27) (h : compile? source = some (tree, code)) :
    Compiles source tree code := by
  unfold compile? at h
  split at h
  · cases h
  · rename_i tree' hparsed
    simp only at h
    split at h
    · rename_i hok
      split at h
      · cases h
      · rename_i p code' hgen
        cases h
        exact ⟨hshort, hparsed, List.isEmpty_iff.mp hok, p, hgen⟩
    · cases h

/-- Where the code of the declarations starts. -/
def bodyStart : Nat := startupCode.length + 1 + routines.length

/-- The functions that a program can call, with the addresses of their code. -/
def Program.pool (p : Program) : Entries :=
  Decl.table bodyStart p.decls ++ [("output", outputEntry), ("input", inputEntry)]

/-- The parts of the code of a program: `S` and `next` are the global scope and the free global
offset at its end, `is` is the code of its declarations. -/
structure Image (tree : Program) (code : List Instr) (S : ScopeTable) (next : Int)
    (is : List Instr) (main : Nat) : Prop where
  laid : Laid true tree.pool .initial 0 bodyStart tree.decls S next is
  main_mem : ("main", main) ∈ tree.pool
  fits : -2 ^ 31 ≤ next - 1
  size : code.length < 2 ^ 31
  startup : Holds code 0 startupCode
  skip : ∃ t, code[3]? = some (.rm .lda .pc 17 .pc t)
  routines : Holds code inputEntry routines
  declarations : Holds code bodyStart is
  finale : ∃ t, Holds code (bodyStart + is.length)
    (callSequence next (.rm .lda .pc (main - (bodyStart + is.length + 4 : Nat)) .pc t) ++
      [.ro .halt .unused .unused .unused ""])

theorem Laid.length_eq {linked : Bool} {pool : Entries} {S S' : ScopeTable} {next next' : Int}
    {start : Nat} {ds : List Decl} {is : List Instr}
    (h : Laid linked pool S next start ds S' next' is) : is.length = Decl.sizes ds := by
  induction h with
  | nil S next start => rfl
  | var hd hcheck hrest ih =>
    simp only [Decl.sizes, List.map_cons, List.sum_cons, List.length_append] at ih ⊢
    rw [ih, VarDecl.length_lengthCode hd]
    rfl
  | prototype hbody hann hscopes hnext hvalue hrest ih =>
    simp only [Decl.sizes, List.map_cons, List.sum_cons, Decl.size, hbody] at ih ⊢
    omega
  | definition hdef hjump hrest ih =>
    have hlen := hdef.length_framed
    simp only [Decl.sizes, List.map_cons, List.sum_cons, List.length_append,
      List.length_cons] at ih ⊢
    omega

theorem Decl.table_lt {start : Nat} {ds : List Decl} {x : String × Nat}
    (h : x ∈ Decl.table start ds) : x.2 < start + Decl.sizes ds := by
  induction ds generalizing start with
  | nil => cases h
  | cons d rest ih =>
    cases d with
    | var d =>
      have := ih h
      simp only [Decl.sizes, List.map_cons, List.sum_cons] at this ⊢
      omega
    | function f =>
      simp only [Decl.table] at h
      simp only [Decl.sizes, List.map_cons, List.sum_cons]
      split at h
      · have := ih h
        simp only [Decl.sizes] at this
        omega
      · rename_i body hbody
        rcases List.mem_cons.mp h with rfl | h
        · simp only [Decl.size, hbody]
          omega
        · have := ih h
          simp only [Decl.sizes] at this
          omega

/-- What is found in a table is in it. -/
theorem mem_of_lookup {entries : Entries} {name : String} {address : Nat}
    (h : entries.lookup name = some address) : (name, address) ∈ entries := by
  induction entries with
  | nil => cases h
  | cons x rest ih =>
    rw [List.lookup_cons] at h
    split at h
    · rename_i heq
      cases h
      rw [beq_iff_eq.mp heq]
      exact List.mem_cons_self
    · exact List.mem_cons_of_mem x (ih h)

/-- What a strict linker links is in its table. -/
theorem Linker.mem_of_entry {k : Linker} (hk : k.strict = true) {callee : String}
    {here target : Nat}
    (h : k.entry callee here = .ok target) : (callee, target) ∈ k.entries := by
  unfold Linker.entry at h
  split at h
  · rename_i entry hl
    cases h
    exact mem_of_lookup hl
  · rw [if_pos hk] at h
    cases h

/-- The fixed code, laid out. -/
theorem Assembly.full_start {known : Entries} {a : Assembly} (h : Assembly.start known = .ok a) :
    ∃ t, a.buffer.Full (startupCode ++ .rm .lda .pc 17 .pc t :: MiniC.routines) ∧
      a.entries = ("output", outputEntry) :: ("input", inputEntry) :: known := by
  simp only [start_eq, Except.bind_eq_ok_iff, Except.pure_eq_ok_iff] at h
  obtain ⟨jump, hjump, rfl⟩ := h
  have hrel := Instr.relative_eq_ok hjump (by decide) (by decide)
  have hd : ((startupCode.length + 1 + MiniC.routines.length : Nat) : Int) -
      ((startupCode.length : Nat) + 1) = 17 := by decide
  rw [hd] at hrel
  rw [hrel]
  exact ⟨_, CodeBuffer.full_empty.emitAll _, rfl⟩

theorem Assembly.full_finale {a a' : Assembly} {next : Int} {l : List Instr}
    (h : a.finale next = .ok a') (hfull : a.buffer.Full l) :
    ∃ main jump, a.entries.lookup "main" = some main ∧ -2 ^ 31 ≤ next - 1 ∧
      Instr.relative .lda .pc (l.length + 3) main "jump to main loc" = .ok jump ∧
      a'.buffer.Full (l ++ (callSequence next jump ++ [.ro .halt .unused .unused .unused ""])) ∧
      a'.entries = a.entries := by
  unfold Assembly.finale at h
  split at h
  · cases h
  · rename_i main hmain
    simp only [Except.bind_eq_ok_iff, Except.pure_eq_ok_iff, hfull.cursor_eq] at h
    obtain ⟨_, hlower, jump, hjump, rfl⟩ := h
    obtain ⟨-, hfit⟩ := lowered_eq_ok hlower
    have hfull' : ∀ js, (Assembly.mk (a.buffer.emitAll js) a.entries).buffer.Full (l ++ js) :=
      hfull.emitAll
    exact ⟨main, jump, hmain, by omega, hjump, hfull' _, rfl⟩

/-- One layout of an accepted program, with addresses known from before. -/
theorem Assembly.laid_program {linked : Bool} {known : Entries} {tree p : Program} {a : Assembly}
    (hok : (analyze tree false).errors = [])
    (hknown : ∀ x ∈ known, x ∈ tree.pool)
    (hrun : Assembly.program linked known (analyze tree false).program = .ok (p, a)) :
    ∃ is t main jump,
      Laid linked tree.pool .initial 0 bodyStart tree.decls
        (Decl.checkAll .initial 0 tree.decls).scopes (Decl.checkAll .initial 0 tree.decls).next is ∧
      ("main", main) ∈ tree.pool ∧ -2 ^ 31 ≤ (Decl.checkAll .initial 0 tree.decls).next - 1 ∧
      Instr.relative .lda .pc (bodyStart + is.length + 3) main "jump to main loc" = .ok jump ∧
      a.buffer.Full (startupCode ++ (.rm .lda .pc 17 .pc t :: (MiniC.routines ++ (is ++
        (callSequence (Decl.checkAll .initial 0 tree.decls).next jump ++
          [.ro .halt .unused .unused .unused ""]))))) ∧
      ∀ x ∈ a.entries, x ∈ tree.pool := by
  simp only [Assembly.program, Except.bind_eq_ok_iff, Except.pure_eq_ok_iff, Prod.exists] at hrun
  obtain ⟨a₀, hstart, ds, a₁, hdecls, a₂, hfinale, heq⟩ := hrun
  cases heq
  obtain ⟨t, hfull₀, hentries₀⟩ := Assembly.full_start hstart
  have hlen : (startupCode ++ Instr.rm .lda .pc 17 .pc t :: MiniC.routines).length =
    bodyStart := rfl
  -- before the declarations there are the routines, and what was known from the first layout
  have hpool₀ : ∀ x ∈ a₀.entries, x ∈ tree.pool := by
    rw [hentries₀]
    intro x hx
    rcases List.mem_cons.mp hx with rfl | hx
    · simp [Program.pool]
    rcases List.mem_cons.mp hx with rfl | hx
    · simp [Program.pool]
    · exact hknown x hx
  rw [errors_analyze] at hok
  rw [decls_analyze] at hdecls
  rw [globalsEnd_analyze] at hfinale
  obtain ⟨is, hlaid, hfull₁, hentries₁⟩ := Assembly.laid_declarations hok hdecls
    hfull₀ hpool₀ (by rw [hlen]; intro x hx; exact List.mem_append_left _ hx)
  have hpool₁ : ∀ x ∈ a₁.entries, x ∈ tree.pool := by
    rw [hentries₁]
    intro x hx
    rcases List.mem_append.mp hx with hx | hx
    · rw [hlen] at hx
      exact List.mem_append_left _ (List.mem_reverse.mp hx)
    · exact hpool₀ x hx
  obtain ⟨main, jump, hmain, hfit, hjump, hfull₂, hentries₂⟩ := Assembly.full_finale hfinale hfull₁
  rw [hlen] at hlaid
  rw [List.length_append, hlen] at hjump
  refine ⟨is, t, main, jump, hlaid, hpool₁ _ (mem_of_lookup hmain), hfit, hjump, ?_, ?_⟩
  · simp only [List.append_assoc, List.cons_append] at hfull₂
    exact hfull₂
  · rw [hentries₂]
    exact hpool₁

theorem holds_segment {α : Type} (before segment after : List α) :
    Holds (before ++ (segment ++ after)) before.length segment := by
  intro i hi
  rw [List.getElem?_append_right (by omega), Nat.add_sub_cancel_left, List.getElem?_append_left hi,
    List.getElem?_eq_getElem hi]

/-- Every call of a program has an address inside its code. -/
theorem Program.pool_lt {p : Program} {x : String × Nat} (h : x ∈ p.pool) :
    x.2 < bodyStart + Decl.sizes p.decls := by
  rcases List.mem_append.mp h with h | h
  · exact Decl.table_lt h
  · simp only [List.mem_cons, List.not_mem_nil, or_false] at h
    have hout : outputEntry < bodyStart := by decide
    have hin : inputEntry < bodyStart := by decide
    rcases h with rfl | rfl
    · exact Nat.lt_add_right _ hout
    · exact Nat.lt_add_right _ hin

/-- Only the code of the second layout remains, which starts from the addresses of the first. -/
theorem Compiles.layout {source : String} {tree : Program} {code : List Instr}
    (h : Compiles source tree code) {p : Program}
    (hgen : generate (analyze tree false).program = .ok (p, code)) :
    ∃ known a, (∀ x ∈ known, x ∈ tree.pool) ∧
      Assembly.program true known (analyze tree false).program = .ok (p, a) ∧
      a.buffer.finish = .ok code := by
  simp only [generate, Except.bind_eq_ok_iff, Except.pure_eq_ok_iff, Prod.exists] at hgen
  obtain ⟨p₁, a₁, hfirst, p₂, a₂, hsecond, code', hfinish, heq⟩ := hgen
  cases heq
  obtain ⟨_, _, _, _, -, -, -, -, -, hknown⟩ :=
    Assembly.laid_program h.accepted (fun x hx => absurd hx List.not_mem_nil) hfirst
  exact ⟨a₁.entries, a₂, hknown, hsecond, hfinish⟩

/-- All of the generated code. -/
theorem Compiles.code_eq {source : String} {tree : Program} {code : List Instr}
    (h : Compiles source tree code) :
    ∃ is t main jump,
      Laid true tree.pool .initial 0 bodyStart tree.decls
        (Decl.checkAll .initial 0 tree.decls).scopes (Decl.checkAll .initial 0 tree.decls).next is ∧
      ("main", main) ∈ tree.pool ∧ -2 ^ 31 ≤ (Decl.checkAll .initial 0 tree.decls).next - 1 ∧
      Instr.relative .lda .pc (bodyStart + is.length + 3) main "jump to main loc" = .ok jump ∧
      code = startupCode ++ (.rm .lda .pc 17 .pc t :: (MiniC.routines ++ (is ++
        (callSequence (Decl.checkAll .initial 0 tree.decls).next jump ++
          [.ro .halt .unused .unused .unused ""])))) := by
  obtain ⟨p, hgen⟩ := h.generated
  obtain ⟨known, a, hknown, hrun, hfinish⟩ := h.layout hgen
  obtain ⟨is, t, main, jump, hlaid, hmain, hfit, hjump, hfull, -⟩ :=
    Assembly.laid_program h.accepted hknown hrun
  rw [hfull.finish] at hfinish
  exact ⟨is, t, main, jump, hlaid, hmain, hfit, hjump, (Except.ok.inj hfinish).symm⟩

/-- The parts of generated code. -/
theorem Compiles.image {source : String} {tree : Program} {code : List Instr}
    (h : Compiles source tree code) :
    ∃ S next is main, Image tree code S next is main ∧
      next = (analyze tree false).program.globalsEnd := by
  obtain ⟨is, t, main, jump, hlaid, hmain, hfit, hjump, rfl⟩ := h.code_eq
  have hshort := h.short
  have hsizes := (parse_size h.parsed).1
  have hlen := hlaid.length_eq
  have hstart : bodyStart = 21 := rfl
  have hmain_lt := Program.pool_lt hmain
  have hrel := Instr.relative_eq_ok hjump (by omega) (by simp only at hmain_lt; omega)
  refine ⟨_, _, is, main, ⟨hlaid, hmain, hfit, ?_, ?_, ?_, ?_, ?_, ?_⟩,
    (globalsEnd_analyze tree false).symm⟩
  · have hstartup : startupCode.length = 3 := rfl
    have hroutines : MiniC.routines.length = 17 := rfl
    simp only [List.length_append, List.length_cons, callSequence, List.length_nil, hstartup,
      hroutines, hlen]
    omega
  · exact holds_segment [] startupCode _
  · exact ⟨t, rfl⟩
  · exact holds_segment (startupCode ++ [.rm .lda .pc 17 .pc t]) routines _
  · exact holds_segment (startupCode ++ .rm .lda .pc 17 .pc t :: routines) is _
  · -- the jump to `main` counts from the instruction behind it
    have hd : (main : Int) - ((bodyStart + is.length + 3 : Nat) + 1)
        = main - (bodyStart + is.length + 4 : Nat) := by omega
    rw [hd] at hrel
    refine ⟨"jump to main loc", ?_⟩
    rw [← hrel]
    have hfinale := holds_segment (startupCode ++ .rm .lda .pc 17 .pc t :: (routines ++ is))
      (callSequence (Decl.checkAll .initial 0 tree.decls).next jump ++
        [.ro .halt .unused .unused .unused ""]) []
    have hbefore : (startupCode ++ Instr.rm .lda .pc 17 .pc t :: (routines ++ is)).length
        = bodyStart + is.length := by
      simp only [bodyStart, List.length_append, List.length_cons]
      omega
    rw [hbefore] at hfinale
    simpa only [List.append_assoc, List.cons_append, List.append_nil] using hfinale

end MiniC
