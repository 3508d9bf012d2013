import Mathlib.Data.List.Forall2
import MiniC.Proofs.Parts

/-!
# Where calls lead

A program is laid out twice, the first time only to learn where its functions start. Calls are
compared with the functions they name: the place of the jump of each call follows from the sizes of
the phrases around it, and the jump found there leads to the address that the called function has
recorded.

* `Exp.calls`, `Stmt.calls`: the calls of a phrase, with the addresses of their jumps
* `Stmt.links`: in the code of an accepted statement each jump has been linked
* `Decl.Entered`: what the layout changes in a declaration
* `Assembly.placed_declarations`: each function is laid out behind a jump around it, and its calls
  are linked by the table of all functions
* `Laid.nodup_table`: no function has two bodies, and none is named like a routine
-/

namespace MiniC

/-! ### Call sites

The calls of a phrase are read off its parts. The code of each part lies at its address, and that of
a call has its jump a few instructions further on, behind the arguments and their copies. So there
is a jump at the place of each call, to where the table says. -/

/-- A call: the address of its jump, and the name of the called function. -/
structure CallSite where
  address : Nat
  callee : String
deriving DecidableEq, Repr

/-- The call that an expression makes behind all that it evaluates. -/
def Part.call? (part : Part) : Option CallSite :=
  match part.exp with
  -- each argument is put aside, and copied by two instructions
  | .call _ _ f args => some ⟨part.start + Exp.argumentSize args + 2 * args.length + 3, f⟩
  | _ => none

/-- The calls in an expression whose code starts at an address, in the order of their jumps. -/
def Exp.calls (start : Nat) (e : Exp) : List CallSite :=
  (e.parts start).filterMap Part.call?

/-- The calls in a statement whose code starts at an address. -/
def Stmt.calls (start : Nat) (s : Stmt) : List CallSite :=
  (s.parts start).filterMap Part.call?

/-- The calls in a function whose address is recorded; its body lies behind the store of the return
address. -/
def FunDecl.calls (f : FunDecl) : List CallSite :=
  match f.entry, f.body with
  | some entry, some body => (Stmt.block body.pos body.decls body.stmts).calls (entry + 1)
  | _, _ => []

/-- The jump of the call has been linked. -/
def Linker.Links (k : Linker) (code : List Instr) (site : CallSite) : Prop :=
  ∃ here target jump, k.entry site.callee here = .ok target ∧
    Instr.relative .lda .pc site.address target s!"jump to {site.callee}" = .ok jump ∧
    code[site.address]? = some jump

section Sites

variable {k : Linker} {code : List Instr}

/-- Where a call lies, its jump has been linked. -/
theorem Part.Lies.links {marks : List Mark} {part : Part} (h : part.Lies k code marks)
    {site : CallSite} (hsite : part.call? = some site) : k.Links code site := by
  obtain ⟨start, e⟩ := part
  obtain ⟨⟨offset, is, his, hcode⟩, -⟩ := h
  unfold Part.call? at hsite
  split at hsite
  · rename_i f args heq
    cases heq
    cases hsite
    cases Exp.coded his with
    | call hargs hparts hlower htarget hjump =>
      rw [holds_append, holds_append, length_copyArguments] at hcode
      rw [← Exp.length_argumentCode (fun _ _ => Exp.length_code) hargs]
      refine ⟨_, _, _, htarget, hjump, ?_⟩
      -- three instructions enter the frame of the callee
      simp only [callSequence, holds_cons] at hcode
      exact hcode.2.2.2.2.2.1
  · cases hsite

/-- In the code of an accepted statement every call is linked. -/
theorem Stmt.links {f : Enclosing} {S : ScopeTable} {next next' : Int} {offset : Int} {start : Nat}
    {s : Stmt} {is : List Instr} (h : s.Emits f S next k offset start next' is)
    (hcode : Holds code start is) :
    ∀ site ∈ (s.check f S next).value.calls start, k.Links code site := by
  intro site hsite
  obtain ⟨part, hpart, hcall⟩ := List.mem_filterMap.mp hsite
  -- calls are linked whatever is beside the code, so the marks are put there
  have hmarks := holds_segment (List.replicate start .outside) (s.check f S next).value.marks []
  rw [List.length_replicate] at hmarks
  exact (Stmt.lies h hcode hmarks part hpart).links hcall

end Sites

/-! ### Functions in their place

The layout of a declaration records the address of a function, and changes nothing else. -/

/-- What the layout of a declaration changes in it. -/
inductive Decl.Entered : Decl → Decl → Prop where
  | var (d : VarDecl) : Entered (.var d) (.var d)
  | prototype (f : FunDecl) (h : f.body = none) : Entered (.function f) (.function f)
  | definition (f : FunDecl) (entry : Nat) (h : f.body ≠ none) :
      Entered (.function f) (.function { f with entry := some entry })

/-- The code of a function lies at its recorded address, behind a jump to the end of that code, and
its calls are linked by entries of a table. -/
structure FunDecl.Placed (table : Entries) (code : List Instr) (f : FunDecl) (body : Block)
    (entry : Nat) (k : Linker) (is : List Instr) : Prop where
  entry_eq : f.entry = some entry
  pos : 0 < entry
  known : (f.name, entry) ∈ table
  strict : k.strict = true
  linked : ∀ x ∈ k.entries, x ∈ table
  code_eq : f.code k entry body = .ok is
  holds : Holds code entry is
  jump : ∃ i, Instr.relative .lda .pc (entry - 1) (entry + is.length) s!"jump around {f.name} body"
      = .ok i ∧ code[entry - 1]? = some i

/-- A segment stays where it is when more code is put behind. -/
theorem Holds.append {α : Type} {whole : List α} {start : Nat} {segment : List α}
    (h : Holds whole start segment) (more : List α) : Holds (whole ++ more) start segment := by
  intro i hi
  obtain ⟨hlt, hget⟩ := List.getElem?_eq_some_iff.mp (h i hi)
  rw [List.getElem?_append_left hlt, List.getElem?_eq_getElem hlt, hget]

/-- A function stays in its place when more code and more entries are added. -/
theorem FunDecl.Placed.mono {table table' : Entries} {code : List Instr} {f : FunDecl}
    {body : Block}
    {entry : Nat} {k : Linker} {is : List Instr} (h : f.Placed table code body entry k is)
    (htable : ∀ x ∈ table, x ∈ table') (more : List Instr) :
    f.Placed table' (code ++ more) body entry k is := by
  refine ⟨h.entry_eq, h.pos, htable _ h.known, h.strict, fun x hx => htable x (h.linked x hx),
    h.code_eq, h.holds.append more, ?_⟩
  obtain ⟨i, hi, hget⟩ := h.jump
  refine ⟨i, hi, ?_⟩
  obtain ⟨hlt, -⟩ := List.getElem?_eq_some_iff.mp hget
  rw [List.getElem?_append_left hlt, hget]

/-- The code of a function begins with the store of its return address. -/
theorem FunDecl.Placed.store {table : Entries} {code : List Instr} {f : FunDecl} {body : Block}
    {entry : Nat} {k : Linker} {is : List Instr} (h : f.Placed table code body entry k is) :
    code[entry]? = some (.rm .st .ac returnOffset .fp s!"{f.name}: store return") ∧
      entry + is.length ≤ code.length := by
  have hholds := h.holds
  have hcode := h.code_eq
  simp only [FunDecl.code, Except.bind_eq_ok_iff, Except.pure_eq_ok_iff] at hcode
  obtain ⟨i, -, rfl⟩ := hcode
  exact ⟨(holds_cons.mp hholds).1, hholds.bound (List.cons_ne_nil _ _)⟩

namespace Assembly

/-- What the layout of one declaration does. -/
theorem placed_declaration {d d' : Decl} {a a' : Assembly} {l : List Instr}
    (hrun : declaration true a d = .ok (d', a')) (hfull : a.buffer.Full l) :
    ∃ js, a'.buffer.Full (l ++ js) ∧ (∀ x ∈ a.entries, x ∈ a'.entries) ∧ d.Entered d' ∧
      ∀ f body, d' = .function f → f.body = some body →
        ∃ entry k is, f.Placed a'.entries (l ++ js) body entry k is := by
  cases d with
  | var d =>
    simp only [declaration, Except.pure_eq_ok_iff] at hrun
    cases hrun
    refine ⟨_, hfull.emitAll _, fun x hx => hx, .var d, ?_⟩
    intro f body hf
    cases hf
  | function f =>
    obtain ⟨pos, result, name, params, body?, frameEnd, entry⟩ := f
    cases body? with
    | none =>
      simp only [declaration, Except.pure_eq_ok_iff] at hrun
      cases hrun
      refine ⟨[], by rwa [List.append_nil], fun x hx => hx, .prototype _ rfl, ?_⟩
      intro f body hf hbody
      cases hf
      cases hbody
    | some body =>
      -- the slot in front is filled with the jump around the code, so both come in order
      rw [declaration_eq hfull.atEnd rfl] at hrun
      simp only [Except.bind_eq_ok_iff, Except.pure_eq_ok_iff, hfull.cursor_eq, if_true] at hrun
      obtain ⟨is, his, jump, hjump, heq⟩ := hrun
      cases heq
      refine ⟨_, hfull.emitAll _, fun x hx => List.mem_cons_of_mem _ hx,
        .definition _ _ (Option.some_ne_none body), ?_⟩
      intro f body' hf hbody
      cases hf
      cases hbody
      have hholds := holds_segment l (jump :: is) []
      rw [List.append_nil, holds_cons] at hholds
      exact ⟨l.length + 1, _, is, rfl, Nat.succ_pos _, List.mem_cons_self, rfl, fun x hx => hx, his,
        hholds.2, jump, hjump, hholds.1⟩

/-- What the layout of declarations does. -/
theorem placed_declarations {ds ds' : List Decl} {a a' : Assembly} {l : List Instr}
    (hrun : declarations true a ds = .ok (ds', a')) (hfull : a.buffer.Full l) :
    ∃ js, a'.buffer.Full (l ++ js) ∧ (∀ x ∈ a.entries, x ∈ a'.entries) ∧
      List.Forall₂ Decl.Entered ds ds' ∧
      ∀ f body, .function f ∈ ds' → f.body = some body →
        ∃ entry k is, f.Placed a'.entries (l ++ js) body entry k is := by
  induction ds generalizing ds' a l with
  | nil =>
    simp only [declarations, Except.pure_eq_ok_iff] at hrun
    cases hrun
    refine ⟨[], by rwa [List.append_nil], fun x hx => hx, .nil, ?_⟩
    intro f body hf
    cases hf
  | cons d rest ih =>
    simp only [declarations, Except.bind_eq_ok_iff, Except.pure_eq_ok_iff, Prod.exists] at hrun
    obtain ⟨d', a₁, hfirst, rest', a₂, hothers, heq⟩ := hrun
    cases heq
    obtain ⟨js, hfull₁, hsub₁, hentered, hplaced₁⟩ := placed_declaration hfirst hfull
    obtain ⟨ks, hfull₂, hsub₂, hall, hplaced₂⟩ := ih hothers hfull₁
    rw [List.append_assoc] at hfull₂
    refine ⟨js ++ ks, hfull₂, fun x hx => hsub₂ x (hsub₁ x hx), .cons hentered hall, ?_⟩
    intro f body hmem hbody
    rw [← List.append_assoc]
    rcases List.mem_cons.mp hmem with heq | hmem
    · obtain ⟨entry, k, is, hplaced⟩ := hplaced₁ f body heq.symm hbody
      exact ⟨entry, k, is, hplaced.mono hsub₂ ks⟩
    · exact hplaced₂ f body hmem hbody

end Assembly

/-! ### Accepted functions

In an accepted program every function that is called is declared, and has a body somewhere. -/

/-- Every analysed function of an accepted program is the analysis of a function, accepted in some
scopes. -/
theorem Decl.mem_checkAll {S : ScopeTable} {next : Int} {ds : List Decl} {f : FunDecl}
    (hok : (Decl.checkAll S next ds).errors = [])
    (hmem : .function f ∈ (Decl.checkAll S next ds).value) :
    ∃ g S' next', .function g ∈ ds ∧ (FunDecl.check S' next' g).errors = [] ∧
      f = (FunDecl.check S' next' g).value := by
  induction ds generalizing S next with
  | nil => cases hmem
  | cons d rest ih =>
    simp only [Decl.checkAll, List.append_eq_nil_iff, List.mem_cons] at hok hmem
    rcases hmem with heq | hmem
    · cases d with
      | var d => cases heq
      | function g =>
        cases heq
        exact ⟨g, S, next, List.mem_cons_self, hok.1, rfl⟩
    · obtain ⟨g, S', next', hg, herrors, heq⟩ := ih hok.2 hmem
      exact ⟨g, S', next', List.mem_cons_of_mem d hg, herrors, heq⟩

/-- The calls of an accepted function are linked where its code lies. -/
theorem FunDecl.links {S : ScopeTable} {next : Int} {g : FunDecl} {body : Block} {k : Linker}
    {entry : Nat} {is code : List Instr} (hok : (g.check S next).errors = [])
    (hbody : (g.check S next).value.body = some body)
    (hcode : (g.check S next).value.code k entry body = .ok is) (hholds : Holds code entry is) :
    ∀ site ∈ (Stmt.block body.pos body.decls body.stmts).calls (entry + 1), k.Links code site := by
  cases hg : g.body with
  | none =>
    simp only [FunDecl.check, hg] at hbody
    cases hbody
  | some b =>
    simp only [FunDecl.check, hg, List.append_eq_nil_iff] at hok hbody hcode
    cases hbody
    simp only [FunDecl.code, Except.bind_eq_ok_iff, Except.pure_eq_ok_iff] at hcode
    obtain ⟨js, hjs, rfl⟩ := hcode
    rw [List.cons_append, holds_cons, holds_append] at hholds
    exact Stmt.links (s := .block b.pos b.decls b.stmts) ⟨hok.1.2, rfl, hjs⟩ hholds.2.1

/-! ### One table

Code depends on the linker only through the functions that it calls, so the code of each function is
also the code that a table of all functions gives it. -/

/-- What one linker links, the other one links in the same way. -/
def Linker.Extends (k' k : Linker) : Prop :=
  ∀ callee here target, k.entry callee here = .ok target → k'.entry callee here = .ok target

section Extends

variable {k k' : Linker}

/-- More entries make no difference to the code of arguments. -/
theorem Exp.argumentCode_extends {args : List Exp}
    (ih : ∀ a ∈ args, ∀ {offset start is}, a.code k offset start = .ok is →
      a.Coded k' offset start is)
    {offset : Int} {start : Nat} {is : List Instr}
    (h : Exp.argumentCode k offset start args = .ok is) :
    Exp.argumentCode k' offset start args = .ok is := by
  induction args generalizing offset start is with
  | nil => exact h
  | cons e rest hrest =>
    obtain ⟨i, j, hlower, hi, hj, rfl⟩ := Exp.argumentCode_cons h
    have hfirst := (ih e List.mem_cons_self hi).code_eq
    have hothers := hrest (fun a ha => ih a (List.mem_cons_of_mem e ha)) hj
    simp only [Exp.argumentCode, Except.bind_eq_ok_iff]
    exact ⟨_, hlower, i, hfirst, j, hothers, rfl⟩

/-- More entries make no difference to how an expression is coded. By induction on that. -/
theorem Exp.Coded.extends (hk : k'.Extends k) {e : Exp} {offset : Int} {start : Nat}
    {is : List Instr} (h : e.Coded k offset start is) : e.Coded k' offset start is := by
  induction h with
  | int p n => exact .int p n
  | bool p b => exact .bool p b
  | nil p => exact .nil p
  | unary he ih => exact .unary ih
  | shortCircuit hop hl hr hskip ihl ihr => exact .shortCircuit hop ihl ihr hskip
  | operation hop hl hlower hr ihl ihr => exact .operation hop ihl hlower ihr
  | comparison hop hl hlower hr ihl ihr => exact .comparison hop ihl hlower ihr
  | var hload => exact .var hload
  | element hi ha ih => exact .element ih ha
  | assign he hstore ih => exact .assign ih hstore
  | assignElement hi ha hlower he ihi ihe => exact .assignElement ihi ha hlower ihe
  | call hargs hparts hlower htarget hjump ih =>
    exact .call (Exp.argumentCode_extends ih hargs) (fun b hb _ _ _ => Exp.coded) hlower
      (hk _ _ _ htarget) hjump

/-- More entries make no difference to the code of an expression. -/
theorem Exp.code_extends (hk : k'.Extends k) {e : Exp} {offset : Int} {start : Nat}
    {is : List Instr} (h : e.code k offset start = .ok is) : e.code k' offset start = .ok is :=
  ((Exp.coded h).extends hk).code_eq

/-- Statements that follow each other, as in `Stmt.code_extends`. -/
theorem Stmt.codeAll_extends {offset : Int} {body : List Stmt}
    (ih : ∀ s ∈ body, ∀ {start is}, s.code k offset start = .ok is → s.Coded k' offset start is)
    {start : Nat} {is : List Instr} (h : Stmt.codeAll k offset start body = .ok is) :
    Stmt.codeAll k' offset start body = .ok is := by
  induction body generalizing start is with
  | nil => exact h
  | cons s rest hrest =>
    obtain ⟨i, j, hi, hj, rfl⟩ := Stmt.codeAll_cons h
    have hfirst := (ih s List.mem_cons_self hi).code_eq
    have hothers := hrest (fun a ha => ih a (List.mem_cons_of_mem s ha)) hj
    simp only [Stmt.codeAll, Except.bind_eq_ok_iff]
    exact ⟨i, hfirst, j, hothers, rfl⟩

/-- More entries make no difference to how a statement is coded. -/
theorem Stmt.Coded.extends (hk : k'.Extends k) {s : Stmt} {offset : Int} {start : Nat}
    {is : List Instr} (h : s.Coded k offset start is) : s.Coded k' offset start is := by
  induction h with
  | exp he => exact .exp (Exp.code_extends hk he)
  | block hbody hparts ih =>
    exact .block (Stmt.codeAll_extends ih hbody) fun _ _ _ _ => Stmt.coded
  | ifThen ht ha hskip ih => exact .ifThen (Exp.code_extends hk ht) ih hskip
  | ifElse ht ha hElse hb hEnd iha ihb =>
    exact .ifElse (Exp.code_extends hk ht) iha hElse ihb hEnd
  | whileDo ht hb hback hskip ih => exact .whileDo (Exp.code_extends hk ht) ih hback hskip
  | retNone p => exact .retNone p
  | retSome he => exact .retSome (Exp.code_extends hk he)

/-- More entries make no difference to the code of a statement. -/
theorem Stmt.code_extends (hk : k'.Extends k) {s : Stmt} {offset : Int} {start : Nat}
    {is : List Instr} (h : s.code k offset start = .ok is) : s.code k' offset start = .ok is :=
  ((Stmt.coded h).extends hk).code_eq

/-- More entries make no difference to the code of a function. -/
theorem FunDecl.code_extends (hk : k'.Extends k) {f : FunDecl} {body : Block} {start : Nat}
    {is : List Instr} (h : f.code k start body = .ok is) : f.code k' start body = .ok is := by
  simp only [FunDecl.code, Except.bind_eq_ok_iff] at h ⊢
  obtain ⟨i, hi, heq⟩ := h
  exact ⟨i, Stmt.code_extends hk hi, heq⟩

end Extends

/-! ### Definitions have different names

A second body for a name is an error, so the table has every name once. -/

/-- The name has a body already. -/
def ScopeTable.Defines (S : ScopeTable) (x : String) : Prop :=
  ∃ n r ps, S.lookup x = some (.function n r ps true)

section Names

variable {S S' : ScopeTable} {slots : List Slot}

/-- A declared name defines no more functions than before. -/
theorem ScopeTable.Defines.declare (hS : S.Global slots) {x : String} {symbol : Symbol}
    (hd : S.declare? x symbol = some S') {y : String} (h : S.Defines y) : S'.Defines y := by
  obtain ⟨n, r, ps, hl⟩ := h
  have hnone := hS.isGlobal.lookup_eq_none_of_declare hd
  refine ⟨n, r, ps, ?_⟩
  rw [lookup_declare hS.valid hd, if_neg, hl]
  rintro rfl
  rw [hnone] at hl
  cases hl

/-- A body is given to a name that has none, and names keep their bodies. -/
theorem FunDecl.defines_announce (hS : S.Global slots) {f : FunDecl}
    (hann : f.announce? S = some S') :
    (∀ x, S.Defines x → S'.Defines x) ∧
      (f.body ≠ none → ¬S.Defines f.name ∧ S'.Defines f.name) := by
  have hsymbol : f.body ≠ none → f.body.isSome = true := Option.isSome_iff_ne_none.mpr
  unfold FunDecl.announce? at hann
  rw [hS.isGlobal.lookupInner] at hann
  split at hann
  · -- a new name
    rename_i hnone
    refine ⟨fun x hx => hx.declare hS hann, fun hbody => ⟨?_, ?_⟩⟩
    · rintro ⟨n, r, ps, hl⟩
      rw [hnone] at hl
      cases hl
    · refine ⟨f.name, f.result, f.params.map fun p => ⟨p.name, p.ty⟩, ?_⟩
      rw [ScopeTable.lookup_declare hS.valid hann, if_pos rfl, FunDecl.symbol, hsymbol hbody]
  · rename_i known hknown
    split at hann
    · split at hann
      · -- another declaration without a body changes nothing
        rename_i hnone
        cases hann
        exact ⟨fun x hx => hx, fun hbody => absurd (Option.isNone_iff_eq_none.mp hnone) hbody⟩
      · split at hann
        · cases hann
        · -- a body for a name that had none
          rename_i hbody hdefined
          have hl := ScopeTable.lookup_redefine hS.valid hann
          have hnew : S'.Defines f.name := by
            refine ⟨f.name, f.result, f.params.map fun p => ⟨p.name, p.ty⟩, ?_⟩
            rw [hl, if_pos rfl, FunDecl.symbol, hsymbol (mt Option.isNone_iff_eq_none.mpr hbody)]
          refine ⟨?_, fun _ => ⟨?_, hnew⟩⟩
          · rintro x ⟨n, r, ps, hx⟩
            by_cases heq : f.name = x
            · rw [← heq]
              exact hnew
            · exact ⟨n, r, ps, by rw [hl, if_neg heq, hx]⟩
          · rintro ⟨n, r, ps, hx⟩
            rw [hknown] at hx
            cases hx
            exact hdefined rfl
    · cases hann

/-- No function is given two bodies, and none whose name has a body from before. -/
theorem Laid.nodup_table {linked : Bool} {pool : Entries} {next next' : Int} {start : Nat}
    {ds : List Decl} {is : List Instr} (h : Laid linked pool S next start ds S' next' is)
    (hS : S.Global slots) :
    (∀ x ∈ Decl.table start ds, ¬S.Defines x.1) ∧ ((Decl.table start ds).map Prod.fst).Nodup := by
  induction h generalizing slots with
  | nil S next start => exact ⟨fun x hx => absurd hx List.not_mem_nil, List.nodup_nil⟩
  | @var S S₁ S₂ next next₂ start d l rest is hd hcheck hrest ih =>
    obtain ⟨hnew, hnodup⟩ := ih (hS.declare_var hd)
    exact ⟨fun x hx hdef => hnew x hx (hdef.declare hS hd.declared), hnodup⟩
  | prototype hbody hann hscopes hnext hvalue hrest ih =>
    obtain ⟨hnew, hnodup⟩ := ih (hS.announce hann).1
    simp only [Decl.table, hbody]
    exact ⟨fun x hx hdef => hnew x hx ((FunDecl.defines_announce hS hann).1 _ hdef), hnodup⟩
  | @definition S S₁ S₂ next next₂ start f body code is jump rest hdef hjump hrest ih =>
    obtain ⟨hnew, hnodup⟩ := ih (hS.announce hdef.announced).1
    obtain ⟨hkeep, hbody⟩ := FunDecl.defines_announce hS hdef.announced
    obtain ⟨hfree, hdefined⟩ := hbody (by rw [hdef.body_eq]; exact Option.some_ne_none body)
    rw [Nat.add_assoc, Nat.add_comm 1, hdef.length_framed] at hnew hnodup
    simp only [Decl.table, hdef.body_eq, List.map_cons, List.nodup_cons]
    refine ⟨?_, ?_, hnodup⟩
    · intro x hx
      rcases List.mem_cons.mp hx with rfl | hx
      · exact hfree
      · exact fun hS => hnew x hx (hkeep _ hS)
    · intro hmem
      obtain ⟨x, hx, heq⟩ := List.mem_map.mp hmem
      exact hnew x hx (by rw [heq]; exact hdefined)

end Names

end MiniC
