import MiniC.Proofs.Arithmetic.Checks
import MiniC.Proofs.Arithmetic.Jumps
import MiniC.Proofs.Arithmetic.Placing

/-!
# No overflow at compile time

The computations of a whole program are those of its two layouts. A frame ends above half of the
lowest number, and a short source does not give more code than the other half, so none of the
computations of an accepted program overflows.

* `Program.computations`: the computations of both layouts
* `generate_noOverflow`: code generation checks no others
* `arithmetic_exact`: analysis and code generation
-/

namespace MiniC

/-! ### Declarations

The jump around a function is as long as its code. Sizes are those of `Stmt.size`, which is read off
the tree. -/

namespace Decl

/-- The computations for the code of declarations from an address on, where some addresses are
known. In its body a function knows its own address, and so do the declarations behind it. -/
def computations (linked : Bool) (known : Entries) (start : Nat) : List Decl → List Computation
  | [] => []
  | .var d :: rest => computations linked known (start + (Decl.var d).size) rest
  | .function f :: rest =>
    match f.body with
    | none => computations linked known start rest
    | some body =>
      let known := (f.name, start + 1) :: known
      let behind := start + (Decl.function f).size
      -- the jump around the function and the store of its return address lie before the body
      body.toStmt.computations ⟨known, linked⟩ f.frameEnd (start + 2) ++
        .jump start behind :: computations linked known behind rest

/-- The size of declarations, one after the other. -/
theorem sizes_cons (d : Decl) (rest : List Decl) : sizes (d :: rest) = d.size + sizes rest := by
  rw [sizes, sizes, List.map_cons, List.sum_cons]

/-- No computation for declarations overflows if there is room below every frame for all of the
code. -/
theorem exact {linked : Bool} {known : Entries} {start : Nat} {ds : List Decl}
    (hknown : Linker.Short ⟨known, linked⟩)
    (hframes : ∀ f, .function f ∈ ds → minOffset ≤ f.frameEnd ∧ f.frameEnd ≤ 0)
    (hsize : sizes ds ≤ 2 ^ 30) (hlen : start + sizes ds < 2 ^ 31) :
    ∀ c ∈ computations linked known start ds, c.Exact := by
  induction ds generalizing known start with
  | nil => exact List.forall_mem_nil _
  | cons d rest ih =>
    rw [sizes_cons] at hsize hlen
    have hrest : ∀ f, .function f ∈ rest → minOffset ≤ f.frameEnd ∧ f.frameEnd ≤ 0 :=
      fun f hf => hframes f (List.mem_cons_of_mem d hf)
    cases d with
    | var d => exact ih hknown hrest (by omega) (by omega)
    | function f =>
      cases hbody : f.body with
      | none =>
        simp only [computations, hbody]
        exact ih hknown hrest (by omega) (by omega)
      | some body =>
        have hfunction : (Decl.function f).size = body.toStmt.size + 3 := by
          simp only [size, hbody, Block.toStmt, Stmt.size]
        have hmin : minOffset = -2 ^ 30 := rfl
        obtain ⟨hlow, hhigh⟩ := hframes f List.mem_cons_self
        have hself : Linker.Short ⟨(f.name, start + 1) :: known, linked⟩ :=
          Assembly.short_cons hknown (by omega)
        simp only [computations, hbody, List.forall_mem_append, List.forall_mem_cons]
        exact ⟨Stmt.exact hself ⟨hhigh, by omega, by omega⟩, .jump (by omega) (by omega),
          ih hself hrest (by omega) (by omega)⟩

end Decl

/-! ### Accepted declarations

The body of an accepted function has code of the size that was counted, and checks exactly the
numbers that were listed. -/

/-- The declaration is the result of an analysis that accepted it: an array has its cells, and the
body of a function is an accepted statement. -/
def Decl.Accepted : Decl → Prop
  | .var d => (d.lengthCode .gp).length = d.shape.size
  | .function f => ∀ body, f.body = some body → ∃ (enclosing : Enclosing) (s : Stmt)
      (S : ScopeTable) (next : Int), (s.check enclosing S next).errors = [] ∧
        body.toStmt = (s.check enclosing S next).value

/-- Declarations without errors are accepted one by one. -/
theorem Decl.accepted_checkAll {S : ScopeTable} {next : Int} {ds : List Decl}
    (hok : (checkAll S next ds).errors = []) : ∀ d ∈ (checkAll S next ds).value, d.Accepted := by
  induction ds generalizing S next with
  | nil => exact List.forall_mem_nil _
  | cons d rest ih =>
    simp only [checkAll, List.append_eq_nil_iff] at hok
    refine List.forall_mem_cons.mpr ⟨?_, ih hok.2⟩
    cases d with
    | var d =>
      obtain ⟨hacc, -, hvalue⟩ := VarDecl.accepted_of_check hok.1
      rw [check, Accepted, hvalue]
      exact VarDecl.length_lengthCode hacc .gp
    | function f =>
      intro body hbody
      have herrors : (f.check S next).errors = [] := hok.1
      cases hf : f.body with
      | none => simp [FunDecl.check, hf] at hbody
      | some b =>
        simp only [FunDecl.check, hf, List.append_eq_nil_iff] at herrors hbody
        cases hbody
        obtain ⟨⟨-, hblock⟩, -⟩ := herrors
        rw [Block.errors_check] at hblock
        exact ⟨_, b.toStmt, _, _, hblock, rfl⟩

section Function

variable {f : FunDecl} {body : Block} {k : Linker} {offset : Int} {start : Nat}

/-- The code of the body of an accepted function has the size that was counted. -/
theorem Block.length_code (hbody : f.body = some body) (hok : (Decl.function f).Accepted)
    {is : List Instr} (h : body.toStmt.code k offset start = .ok is) :
    is.length = body.toStmt.size := by
  obtain ⟨_, s, _, _, hs, heq⟩ := hok body hbody
  rw [heq] at h ⊢
  exact Stmt.length_code_check hs h

/-- It is only the listed numbers that the generator checks. -/
theorem Block.noOverflow (hbody : f.body = some body) (hok : (Decl.function f).Accepted)
    (h : ∀ c ∈ body.toStmt.computations k offset start, c.Exact) :
    NoOverflow (body.toStmt.code k offset start) := by
  obtain ⟨_, s, _, _, hs, heq⟩ := hok body hbody
  rw [heq] at h ⊢
  exact Stmt.noOverflow hs h

/-- Its jumps are the listed ones. -/
theorem Block.jumps (hbody : f.body = some body) (hok : (Decl.function f).Accepted)
    {is : List Instr} (h : body.toStmt.code k offset start = .ok is) :
    Jumps start is (body.toStmt.computations k offset start) := by
  obtain ⟨_, s, _, _, hs, heq⟩ := hok body hbody
  rw [heq] at h ⊢
  exact Stmt.jumps ⟨hs, rfl, h⟩

/-- A function takes its code and the jump around it. -/
theorem FunDecl.length_framed (hbody : f.body = some body) {is : List Instr}
    (hlen : is.length = body.toStmt.size) :
    (f.framed is).length + 1 = (Decl.function f).size := by
  simp only [FunDecl.framed, List.length_cons, List.length_append, List.length_nil, hlen,
    Decl.size, hbody, Block.toStmt, Stmt.size]

/-- Where the code behind a function starts. -/
theorem FunDecl.length_append_framed (hbody : f.body = some body)
    (hok : (Decl.function f).Accepted) {is : List Instr}
    (h : body.toStmt.code k offset start = .ok is) (l : List Instr) (jump : Instr) :
    (l ++ jump :: f.framed is).length = l.length + (Decl.function f).size := by
  rw [List.length_append, List.length_cons,
    FunDecl.length_framed hbody (Block.length_code hbody hok h)]

end Function

/-- Where the code behind a global variable starts. -/
theorem VarDecl.length_append_lengthCode {d : VarDecl} (hok : (Decl.var d).Accepted)
    (l : List Instr) : (l ++ d.lengthCode .gp).length = l.length + (Decl.var d).size := by
  rw [List.length_append, hok]
  rfl

/-! ### Layouts

Two layouts are made, the first one with addresses of functions that are not known yet. Their
computations are listed apart. -/

namespace Assembly

variable {linked : Bool} {a a' : Assembly} {l : List Instr}

/-- The layout of a function with a body. -/
theorem declaration_definition {f : FunDecl} {body : Block} {d : Decl} (hbody : f.body = some body)
    (hrun : declaration linked a (.function f) = .ok (d, a')) (hfull : a.buffer.Full l) :
    ∃ is jump, body.toStmt.code ⟨(f.name, l.length + 1) :: a.entries, linked⟩ f.frameEnd
        (l.length + 2) = .ok is ∧
      Instr.relative .lda .pc l.length (l.length + 1 + (f.framed is).length)
        s!"jump around {f.name} body" = .ok jump ∧
      a'.buffer.Full (l ++ jump :: f.framed is) ∧
      a'.entries = (f.name, l.length + 1) :: a.entries := by
  rw [declaration_eq hfull.atEnd hbody] at hrun
  simp only [Except.bind_eq_ok_iff, Except.pure_eq_ok_iff, hfull.cursor_eq] at hrun
  obtain ⟨is, his, jump, hjump, heq⟩ := hrun
  cases heq
  simp only [FunDecl.code, Except.bind_eq_ok_iff, Except.pure_eq_ok_iff] at his
  obtain ⟨js, hjs, rfl⟩ := his
  exact ⟨js, jump, hjs, hjump, hfull.emitAll _, rfl⟩

/-- A function is assembled without overflow if its numbers, and the jump around it, are exact. -/
theorem noOverflow_definition {f : FunDecl} {body : Block} (hbody : f.body = some body)
    (hok : (Decl.function f).Accepted) (hfull : a.buffer.Full l)
    (hcode : ∀ c ∈ body.toStmt.computations ⟨(f.name, l.length + 1) :: a.entries, linked⟩
      f.frameEnd (l.length + 2), c.Exact)
    (hjump : (Computation.jump l.length (l.length + (Decl.function f).size)).Exact) :
    NoOverflow (declaration linked a (.function f)) := by
  rw [declaration_eq hfull.atEnd hbody]
  simp only [hfull.cursor_eq]
  refine ((Block.noOverflow hbody hok hcode).bind fun _ _ => .ok _).bind fun is his => ?_
  obtain ⟨js, hjs, heq⟩ := Except.bind_eq_ok_iff.mp his
  cases heq
  have hlen := FunDecl.length_framed hbody (Block.length_code hbody hok hjs)
  have hbehind : l.length + 1 + (f.framed js).length = l.length + (Decl.function f).size := by
    omega
  rw [← hbehind] at hjump
  exact .relative hjump fun _ => .ok _

/-- Declarations whose computations are exact are laid out, or there is something else wrong with
them. -/
theorem noOverflow_declarations {ds : List Decl} (hok : ∀ d ∈ ds, d.Accepted)
    (hfull : a.buffer.Full l)
    (h : ∀ c ∈ Decl.computations linked a.entries l.length ds, c.Exact) :
    NoOverflow (declarations linked a ds) := by
  induction ds generalizing a l with
  | nil => exact .ok _
  | cons d rest ih =>
    obtain ⟨hd, hrest⟩ := List.forall_mem_cons.mp hok
    cases d with
    | var d =>
      refine .after rfl ((ih hrest (hfull.emitAll _) ?_).bind fun _ _ => .ok _)
      rw [VarDecl.length_append_lengthCode hd]
      exact h
    | function f =>
      cases hbody : f.body with
      | none =>
        simp only [Decl.computations, hbody] at h
        have hplaced : declaration linked a (.function f) = .ok (.function f, a) := by
          rw [declaration, hbody]
          rfl
        exact .after hplaced ((ih hrest hfull h).bind fun _ _ => .ok _)
      | some body =>
        simp only [Decl.computations, hbody, List.forall_mem_append, List.forall_mem_cons] at h
        obtain ⟨hcode, hjump, hothers⟩ := h
        refine (noOverflow_definition hbody hd hfull hcode hjump).bind fun x hx => ?_
        obtain ⟨d', a₁⟩ := x
        obtain ⟨is, jump, his, -, hfull₁, hentries⟩ := declaration_definition hbody hx hfull
        refine (ih hrest hfull₁ ?_).bind fun _ _ => .ok _
        rw [hentries, FunDecl.length_append_framed hbody hd his]
        exact hothers

/-- The jumps of declarations. -/
theorem jumps_declarations {ds ds' : List Decl} (hok : ∀ d ∈ ds, d.Accepted)
    (hfull : a.buffer.Full l) (hrun : declarations linked a ds = .ok (ds', a')) :
    ∃ js, a'.buffer.Full (l ++ js) ∧ js.length = Decl.sizes ds ∧
      a'.entries = (Decl.table l.length ds).reverse ++ a.entries ∧
      Jumps l.length js (Decl.computations linked a.entries l.length ds) := by
  induction ds generalizing a l ds' with
  | nil =>
    cases hrun
    exact ⟨[], by rwa [List.append_nil], rfl, rfl, .nil⟩
  | cons d rest ih =>
    obtain ⟨hd, hrest⟩ := List.forall_mem_cons.mp hok
    simp only [declarations, Except.bind_eq_ok_iff, Except.pure_eq_ok_iff, Prod.exists] at hrun
    obtain ⟨d', a₁, hfirst, rest', a₂, hothers, heq⟩ := hrun
    cases heq
    cases d with
    | var d =>
      cases hfirst
      obtain ⟨js, hfull', hsizes, hentries, hjumps⟩ := ih hrest (hfull.emitAll _) hothers
      rw [VarDecl.length_append_lengthCode hd] at hentries hjumps
      have hlengths : Jumps l.length (d.lengthCode .gp) [] :=
        .fixed (d.fixed_lengthCode (.inl rfl))
      refine ⟨d.lengthCode .gp ++ js, by rwa [← List.append_assoc], ?_, hentries,
        hlengths.append hjumps (by rw [hd]; rfl)⟩
      rw [List.length_append, hsizes, hd, Decl.sizes_cons]
      rfl
    | function f =>
      cases hbody : f.body with
      | none =>
        simp only [declaration, hbody, Except.pure_eq_ok_iff] at hfirst
        cases hfirst
        obtain ⟨js, hfull', hsizes, hentries, hjumps⟩ := ih hrest hfull hothers
        simp only [Decl.computations, Decl.table, hbody]
        refine ⟨js, hfull', ?_, hentries, hjumps⟩
        rw [Decl.sizes_cons, hsizes, Decl.size, hbody, Nat.zero_add]
      | some body =>
        obtain ⟨is, jump, his, hjump, hfull₁, hentries₁⟩ :=
          declaration_definition hbody hfirst hfull
        obtain ⟨js, hfull', hsizes, hentries, hjumps⟩ := ih hrest hfull₁ hothers
        have hlen := FunDecl.length_framed hbody (Block.length_code hbody hd his)
        rw [FunDecl.length_append_framed hbody hd his, hentries₁] at hentries hjumps
        simp only [Decl.computations, Decl.table, hbody]
        refine ⟨jump :: f.framed is ++ js, by rwa [← List.append_assoc], ?_, ?_, ?_⟩
        · rw [List.length_append, List.length_cons, hlen, hsizes, Decl.sizes_cons]
        · rw [hentries, List.reverse_cons, List.append_assoc]
          rfl
        · have hframe : Jumps (l.length + 1) (f.framed is) _ :=
            (((Block.jumps hbody hd his).append_fixed
              (List.forall_mem_singleton.mpr (.inl rfl))).cons_fixed (.inl rfl))
          have hsize : l.length + 1 + (f.framed is).length =
              l.length + (Decl.function f).size := by omega
          rw [hsize] at hjump
          -- the jump around the function is computed last, but stands in front
          refine ((hframe.cons_relative hjump).append hjumps ?_).congr fun address target => ?_
          · rw [List.length_cons, hlen]
          · rw [List.mem_append, List.mem_append, List.mem_cons, List.mem_cons, or_left_comm,
              or_assoc]

end Assembly

/-! ### Programs

The code generator answers with a fault or with code. That the fault is never a number out of range
follows from the parts of the generator one by one. -/

namespace Program

/-- The addresses that are known behind a layout of the program: those of its functions, those of
the routines, and those that are known before. -/
def addresses (known : Entries) (p : Program) : Entries :=
  (Decl.table bodyStart p.decls).reverse ++
    ("output", outputEntry) :: ("input", inputEntry) :: known

/-- The computations of one layout: of the jump over the routines, of the declarations, and of the
call of `main` behind them. -/
def layoutComputations (linked : Bool) (known : Entries) (p : Program) : List Computation :=
  .jump startupCode.length bodyStart ::
    Decl.computations linked (("output", outputEntry) :: ("input", inputEntry) :: known)
      bodyStart p.decls ++
    .add p.globalsEnd savedFrameOffset :: ((p.addresses known).lookup "main").toList.map
      (.jump (bodyStart + Decl.sizes p.decls + 3))

/-- The computations of both layouts. The second one starts from the addresses that are known behind
the first. -/
def computations (p : Program) : List Computation :=
  p.layoutComputations false [] ++ p.layoutComputations true (p.addresses [])

/-- The program leaves room for its computations: frames end above half of the lowest number, and
the code takes no more than the other half. -/
structure Roomy (p : Program) : Prop where
  globals : minOffset ≤ p.globalsEnd ∧ p.globalsEnd ≤ 0
  frames : ∀ f, .function f ∈ p.decls → minOffset ≤ f.frameEnd ∧ f.frameEnd ≤ 0
  size : Decl.sizes p.decls ≤ 2 ^ 30

variable {p : Program} {linked : Bool} {known : Entries}

/-- Functions start where a displacement can reach them. -/
theorem addresses_short (hp : p.Roomy) (hknown : ∀ x ∈ known, x.2 < 2 ^ 31) :
    ∀ x ∈ p.addresses known, x.2 < 2 ^ 31 := by
  have hstart : bodyStart = 21 := rfl
  have hsize := hp.size
  unfold addresses
  simp only [List.forall_mem_append, List.forall_mem_cons, List.mem_reverse]
  refine ⟨fun x hx => ?_, by decide, by decide, hknown⟩
  have := Decl.table_lt hx
  omega

/-- All numbers of a layout are exact if there is room for the code. -/
theorem exact_layout (hp : p.Roomy) (hknown : ∀ x ∈ known, x.2 < 2 ^ 31) :
    ∀ c ∈ p.layoutComputations linked known, c.Exact := by
  have hstart : bodyStart = 21 := rfl
  have hsize := hp.size
  have hmin : minOffset = -2 ^ 30 := rfl
  have hsaved : savedFrameOffset = -1 := rfl
  obtain ⟨hlow, hhigh⟩ := hp.globals
  have hroutines : Linker.Short
      ⟨("output", outputEntry) :: ("input", inputEntry) :: known, linked⟩ :=
    Assembly.short_cons (Assembly.short_cons hknown (by decide)) (by decide)
  simp only [layoutComputations, List.cons_append, List.forall_mem_cons, List.forall_mem_append]
  refine ⟨.jump (by decide) (by decide), Decl.exact hroutines hp.frames hsize (by omega),
    .add (by omega) (by omega), fun c hc => ?_⟩
  obtain ⟨main, hmain, rfl⟩ := List.mem_map.mp hc
  have hlookup := Option.mem_toList.mp hmain
  exact .jump (by omega) (addresses_short hp hknown _ (mem_of_lookup hlookup))

/-- No computation of either layout overflows if there is room. -/
theorem exact (hp : p.Roomy) : ∀ c ∈ p.computations, c.Exact :=
  List.forall_mem_append.mpr ⟨exact_layout hp (List.forall_mem_nil _),
    exact_layout hp (addresses_short hp (List.forall_mem_nil _))⟩

end Program

namespace Assembly

variable {p q : Program} {linked : Bool} {known : Entries} {a : Assembly}

/-- The fixed code. -/
theorem jumps_start (h : start known = .ok a) :
    ∃ l, a.buffer.Full l ∧ l.length = bodyStart ∧
      a.entries = ("output", outputEntry) :: ("input", inputEntry) :: known ∧
      Jumps 0 l [.jump startupCode.length bodyStart] := by
  simp only [start_eq, Except.bind_eq_ok_iff, Except.pure_eq_ok_iff] at h
  obtain ⟨jump, hjump, rfl⟩ := h
  have hfull := CodeBuffer.full_empty.emitAll (startupCode ++ jump :: routines)
  rw [List.nil_append] at hfull
  refine ⟨_, by simpa only using hfull, rfl, rfl, ?_⟩
  have hplain : ∀ i ∈ startupCode ++ routines, i.isRelative = false := by decide
  obtain ⟨hstartup, hroutines⟩ := List.forall_mem_append.mp hplain
  have hbehind : Jumps (startupCode.length + 1) routines [] :=
    .fixed fun i hi => .inl (hroutines i hi)
  exact (Jumps.fixed fun i hi => .inl (hstartup i hi)).append (hbehind.cons_relative hjump) rfl

/-- A layout is made without overflow if its numbers are exact. -/
theorem noOverflow_program (hok : ∀ d ∈ p.decls, d.Accepted)
    (h : ∀ c ∈ p.layoutComputations linked known, c.Exact) :
    NoOverflow (program linked known p) := by
  simp only [Program.layoutComputations, List.cons_append, List.forall_mem_cons,
    List.forall_mem_append] at h
  obtain ⟨-, hdecls, hframe, hmain⟩ := h
  obtain ⟨a₀, hstart⟩ := exists_start known
  obtain ⟨l, hfull, hlen, hentries, -⟩ := jumps_start hstart
  rw [← hentries, ← hlen] at hdecls
  refine .after hstart ((noOverflow_declarations hok hfull hdecls).bind fun x hx => ?_)
  obtain ⟨ds, a⟩ := x
  obtain ⟨js, hfull', hsizes, haddresses, -⟩ := jumps_declarations hok hfull hx
  have hbehind : a.buffer.cursor = bodyStart + Decl.sizes p.decls := by
    rw [hfull'.cursor_eq, List.length_append, hsizes, hlen]
  rw [hentries, hlen] at haddresses
  refine NoOverflow.bind ?_ fun _ _ => .ok _
  show NoOverflow (a.finale p.globalsEnd)
  unfold finale
  cases hlookup : a.entries.lookup "main" with
  | none => simp [NoOverflow]
  | some main =>
    have hmem : main ∈ ((p.addresses known).lookup "main").toList := by
      rw [Option.mem_toList, ← hlookup, haddresses]
      rfl
    refine .lowered hframe (.relative ?_ fun _ => .ok _)
    rw [hbehind]
    exact hmain _ (List.mem_map_of_mem hmem)

/-- A layout of a program leaves its addresses, and the jumps in its code are those among its
computations. -/
theorem jumps_program (hok : ∀ d ∈ p.decls, d.Accepted)
    (hrun : program linked known p = .ok (q, a)) :
    ∃ code, a.buffer.Full code ∧ a.entries = p.addresses known ∧
      Jumps 0 code (p.layoutComputations linked known) := by
  simp only [program, Except.bind_eq_ok_iff, Except.pure_eq_ok_iff, Prod.exists] at hrun
  obtain ⟨a₀, hstart, ds, a₁, hdecls, a₂, hfinale, heq⟩ := hrun
  cases heq
  obtain ⟨l, hfull, hlen, hentries, hfixed⟩ := jumps_start hstart
  obtain ⟨js, hfull₁, hsizes, haddresses, hjumps⟩ := jumps_declarations hok hfull hdecls
  obtain ⟨main, jump, hmain, -, hjump, hfull₂, hentries₂⟩ := full_finale hfinale hfull₁
  have hbehind : (l ++ js).length = bodyStart + Decl.sizes p.decls := by
    rw [List.length_append, hsizes, hlen]
  rw [hentries, hlen] at haddresses
  rw [hentries, hlen] at hjumps
  rw [hbehind] at hjump
  rw [haddresses] at hmain
  have hcall : Jumps (bodyStart + Decl.sizes p.decls)
      (callSequence p.globalsEnd jump ++ [.ro .halt .unused .unused .unused ""]) _ :=
    (jumps_callSequence hjump).append_fixed (List.forall_mem_singleton.mpr (.inl rfl))
  refine ⟨_, hfull₂, hentries₂.trans haddresses, ?_⟩
  refine ((hfixed.append hjumps (by rw [Nat.zero_add, hlen])).append hcall ?_).congr
    fun address target => ?_
  · rw [Nat.zero_add, hbehind]
  · simp [Program.layoutComputations, Program.addresses, hmain]

end Assembly

section Generate

variable {p q : Program}

/-- Reading the code out of the buffer checks no numbers. -/
theorem CodeBuffer.noOverflow_finish (b : CodeBuffer) : NoOverflow b.finish := by
  unfold CodeBuffer.finish
  generalize b.slots.toList = slots
  generalize 0 = address
  induction slots generalizing address with
  | nil => exact .ok _
  | cons slot rest ih =>
    cases slot with
    | none => simp [NoOverflow, CodeBuffer.filled]
    | some i => exact (ih _).bind fun _ _ => .ok _

/-- Code generation stops because of a number out of range only if one of the computations
overflows. -/
theorem generate_noOverflow (hok : ∀ d ∈ p.decls, d.Accepted)
    (h : ∀ c ∈ p.computations, c.Exact) : NoOverflow (generate p) := by
  obtain ⟨hfirst, hsecond⟩ := List.forall_mem_append.mp h
  refine (Assembly.noOverflow_program hok hfirst).bind fun x hx => ?_
  obtain ⟨q, a⟩ := x
  obtain ⟨-, -, hentries, -⟩ := Assembly.jumps_program hok hx
  refine NoOverflow.bind ?_ fun y _ => y.2.buffer.noOverflow_finish.bind fun _ _ => .ok _
  show NoOverflow (Assembly.program true a.entries p)
  rw [hentries]
  exact Assembly.noOverflow_program hok hsecond

/-- The jumps of generated code are those among the computations of the second layout. -/
theorem generate_jumps (hok : ∀ d ∈ p.decls, d.Accepted) {code : List Instr}
    (h : generate p = .ok (q, code)) :
    Jumps 0 code (p.layoutComputations true (p.addresses [])) := by
  simp only [generate, Except.bind_eq_ok_iff, Except.pure_eq_ok_iff, Prod.exists] at h
  obtain ⟨p₁, first, hfirst, p₂, second, hsecond, code', hfinish, heq⟩ := h
  cases heq
  obtain ⟨-, -, hentries, -⟩ := Assembly.jumps_program hok hfirst
  rw [hentries] at hsecond
  obtain ⟨code', hfull, -, hjumps⟩ := Assembly.jumps_program hok hsecond
  rw [hfull.finish] at hfinish
  cases hfinish
  exact hjumps

end Generate

/-! ### Sources

A source is longer than its tree, and its code is at most so many times as long. So the bound on the
source bounds every number that is checked. -/

/-- The analysis keeps sizes. -/
theorem Decl.size_check {S : ScopeTable} {next : Int} {d : Decl} :
    (d.check S next).value.size = d.size := by
  cases d with
  | var d => rfl
  | function f =>
    cases hbody : f.body with
    | none => simp only [check, FunDecl.check, hbody, size]
    | some body =>
      -- sizes agree for every scope, so it does not matter in which one the body is checked
      have hbody' := fun enclosing S next => Stmt.size_check enclosing S next body.toStmt
      simp only [Block.toStmt, Stmt.check, Stmt.size, VarDecl.sizes_checkAll,
        Nat.add_left_cancel_iff] at hbody'
      simp only [check, FunDecl.check, Block.check, hbody, size, VarDecl.sizes_checkAll, hbody']

/-- The analysis keeps sizes, declaration by declaration. -/
theorem Decl.sizes_checkAll {S : ScopeTable} {next : Int} {ds : List Decl} :
    sizes (checkAll S next ds).value = sizes ds := by
  induction ds generalizing S next with
  | nil => rfl
  | cons d rest ih => rw [checkAll, sizes_cons, sizes_cons, ih, size_check]

/-- The code of a short source has room. -/
theorem roomy_analyze {source : String} {tree : Program} (hshort : source.utf8ByteSize < 2 ^ 27)
    (hparse : parse source = .ok tree) (trace : Bool) : (analyze tree trace).program.Roomy := by
  have hplaces := analyze_places hparse trace
  have hsizes := (parse_size hparse).1
  refine ⟨hplaces.globals.bounds, fun f hf => ?_, ?_⟩
  · exact (hplaces.frames f (Program.mem_functions.mpr hf)).bounds
  · show Decl.sizes (analyze tree trace).program.decls ≤ 2 ^ 30
    rw [decls_analyze, Decl.sizes_checkAll]
    omega

/-- Every jump in the code is as far as it is from behind it to its target, and no other instruction
has a displacement that was computed. -/
structure JumpsExact (code : List Instr) (cs : List Computation) : Prop where
  carried : ∀ address target, .jump address target ∈ cs → ∃ op r comment,
    code[address]? = some (.rm op r (target - (address + 1)) .pc comment)
  listed : ∀ address i, code[address]? = some i → i.Fixed ∨ ∃ op r target comment,
    .jump address target ∈ cs ∧ i = .rm op r (target - (address + 1)) .pc comment

/-- If the listed displacements are exact, so are those in the code. -/
theorem Jumps.exact {code : List Instr} {cs : List Computation} (h : Jumps 0 code cs)
    (hcs : ∀ c ∈ cs, c.Exact) : JumpsExact code cs := by
  have hrelative : ∀ {op r address target comment i}, .jump address target ∈ cs →
      Instr.relative op r address target comment = .ok i →
        i = .rm op r (target - (address + 1)) .pc comment := by
    intro op r address target comment i hmem hi
    obtain ⟨-, -, hd⟩ := hcs _ hmem
    rw [Instr.relative, hd] at hi
    exact (Except.ok.inj hi).symm
  constructor
  · intro address target hmem
    obtain ⟨n, i, op, r, comment, rfl, hcode, hi⟩ := h.carried address target hmem
    rw [Nat.zero_add] at hi hmem ⊢
    exact ⟨op, r, comment, by rw [hcode, hrelative hmem hi]⟩
  · intro address i hcode
    refine (h.listed address i hcode).imp_right ?_
    rw [Nat.zero_add]
    rintro ⟨op, r, target, comment, hmem, hi⟩
    exact ⟨op, r, target, comment, hmem, hrelative hmem hi⟩

/-- Arithmetic with 32-bit numbers at compile time. The analysis of a short source that can be
parsed places all declarations as it would with unbounded numbers. If it reports nothing, the
computations of code generation give what they would give with unbounded numbers; code generation
does not stop because of a number out of range; and if it gives code, every jump has the exact
difference of its target and the address behind it. -/
theorem arithmetic_exact {source : String} {tree : Program}
    (hshort : source.utf8ByteSize < 2 ^ 27) (hparse : parse source = .ok tree) (trace : Bool) :
    (analyze tree trace).program.Checked ∧
      ((analyze tree trace).errors = [] →
        (∀ c ∈ (analyze tree trace).program.computations, c.Exact) ∧
        generate (analyze tree trace).program ≠ .error .outOfRange ∧
        ∀ p code, generate (analyze tree trace).program = .ok (p, code) →
          JumpsExact code ((analyze tree trace).program.layoutComputations true
            ((analyze tree trace).program.addresses []))) := by
  refine ⟨analyze_places hparse trace, fun hok => ?_⟩
  have hexact := Program.exact (roomy_analyze hshort hparse trace)
  have haccepted : ∀ d ∈ (analyze tree trace).program.decls, d.Accepted := by
    rw [errors_analyze] at hok
    rw [decls_analyze]
    exact Decl.accepted_checkAll hok
  exact ⟨hexact, generate_noOverflow haccepted hexact, fun p code hcode =>
    (generate_jumps haccepted hcode).exact (List.forall_mem_append.mp hexact).2⟩

/-- A call in an operand, with an operation in its argument. -/
def recursiveSource : String :=
  "int f(int x) \x7b return 1 - f(x - 2); \x7d void main(void) \x7b \x7d"

/-- The diagnostics of a program, whether it has code, and the jumps of its second layout. -/
def jumpsOf? (source : String) : Option (List Diagnostic × Bool × List Computation) :=
  (parse source).toOption.map fun tree =>
    let p := (analyze tree false).program
    ((analyze tree false).errors, (generate p).toOption.isSome,
      (p.layoutComputations true (p.addresses [])).filter fun c => c matches .jump _ _)

/-- The theorem at work on a source with a call to itself, where the jump goes backwards. -/
theorem arithmetic_exact_recursive : ∃ tree p code, recursiveSource.utf8ByteSize < 2 ^ 27 ∧
    parse recursiveSource = .ok tree ∧ (analyze tree false).program.Checked ∧
    (analyze tree false).errors = [] ∧ generate (analyze tree false).program = .ok (p, code) ∧
    (∀ c ∈ (analyze tree false).program.computations, c.Exact) ∧
    ∃ op r comment, code[36]? = some (.rm op r (-15) .pc comment) := by
  have hascii : Ascii recursiveSource _ := ⟨rfl, rfl⟩
  have hjumps : jumpsOf? recursiveSource =
      some ([], true, [.jump 3 21, .jump 36 22, .jump 21 42, .jump 42 45, .jump 48 43]) := by
    rw [jumpsOf?, parse, hascii.scan_eq]
    decide +kernel
  have hshort : recursiveSource.utf8ByteSize < 2 ^ 27 := by
    rw [hascii.utf8ByteSize_eq]
    decide +kernel
  obtain ⟨tree, hparse, hjumps⟩ := Option.map_eq_some_iff.mp hjumps
  have hparse := Except.eq_ok_of_toOption hparse
  simp only [Prod.mk.injEq] at hjumps
  obtain ⟨hok, hcode, hlist⟩ := hjumps
  obtain ⟨⟨p, code⟩, hcode⟩ := Option.isSome_iff_exists.mp hcode
  have hcode := Except.eq_ok_of_toOption hcode
  obtain ⟨hchecked, hrest⟩ := arithmetic_exact hshort hparse false
  obtain ⟨hexact, -, hdisplaced⟩ := hrest hok
  have hcall : Computation.jump 36 22 ∈
      [.jump 3 21, .jump 36 22, .jump 21 42, .jump 42 45, .jump 48 43] := by
    decide
  rw [← hlist] at hcall
  exact ⟨tree, p, code, hshort, hparse, hchecked, hok, hcode, hexact,
    (hdisplaced p code hcode).carried 36 22 (List.mem_of_mem_filter hcall)⟩

end MiniC
