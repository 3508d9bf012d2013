import MiniC.Proofs.Typing.Entries
import MiniC.Proofs.Typing.Uses
import MiniC.Syntax.Parser

/-!
# The scopes of a program, listed

A program says which scopes are closed in it, in which order, and which declarations stand in each.
The dump of the analysis lists just these scopes, however deep they are nested, and the analysis
reports a redeclaration for just those declarations that a scope rejects.

* `Stmt.scopes`, `FunDecl.scopes`, `Program.scopes`: the scopes, in the order in which they close
* `ListedScope.lines`: what a dump shows of a scope
* `VarDecl.shows_checkAll`, `FunDecl.shows_announce`: the declarations of a scope
* `Stmt.lists_check`, `Decl.lists_checkAll`: statements and programs
* `analyze_lists`: every program
-/

namespace MiniC

/-! ### Scopes

The scopes of a program are read off its text, with the declarations that each of them has. Which of
these it accepts is said in `Entry.accepted`, and the dump shows those. -/

/-- Blanks behind blanks. -/
theorem Text.blanks_append_blanks (m n : Nat) : blanks m ++ blanks n = blanks (m + n) := by
  unfold blanks
  rw [← String.ofList_append, List.replicate_append_replicate]

/-- The entry of a variable or parameter. -/
def VarDecl.asEntry (role : Role) (d : VarDecl) : Entry :=
  ⟨(Decl.var d).header, s!"{d.name} : {d.ty.text}", some ⟨d.pos, .redeclared role d.name⟩⟩

/-- The entry of a function, with the parameter names of this declaration. -/
def FunDecl.asEntry (f : FunDecl) : Entry :=
  let params := ", ".intercalate (f.params.map fun p => s!"{p.name} : {p.ty.text}")
  ⟨(Decl.function f).header, s!"Function {f.name} : {f.result.text} ({params})",
    some ⟨f.pos, .redeclared .function f.name⟩⟩

/-- The entry of a declaration of the outermost level. -/
def Decl.asEntry : Decl → Entry
  | .var d => d.asEntry .var
  | .function f => f.asEntry

/-- The entries of the routines that every program can call. -/
def routineEntries : List Entry :=
  [⟨⟨"input", .function .int [], true⟩, "Function input : int ()", none⟩,
    ⟨⟨"output", .function .void [.int], true⟩, "Function output : void (x : int)", none⟩]

/-- A scope that a program closes. -/
structure ListedScope where
  /-- The number of scopes around it. -/
  enclosing : Nat
  /-- Its heading in a dump, unless it is left out. -/
  heading : Option String
  entries : List Entry

namespace ListedScope

/-- The entries that the scope accepts. -/
def accepted (s : ListedScope) : List Entry :=
  Entry.accepted [] s.entries

/-- The entries that the scope shows in the end. -/
def shown (s : ListedScope) : List Entry :=
  Entry.shown s.accepted

/-- The lines of a scope in a dump: its heading, and a line for each entry, with four blanks for
each enclosing scope. -/
def lines (s : ListedScope) : List String :=
  match s.heading with
  | none => []
  | some heading => (Text.blanks (4 * s.enclosing) ++ heading) ::
      s.shown.map fun e => Text.blanks (4 * (s.enclosing + 1)) ++ e.line

/-- What is reported of the entries that the scope rejects. -/
def refusals (s : ListedScope) : List Diagnostic :=
  (Entry.rejected [] s.entries).filterMap Entry.refusal

/-- A scope shows each name once, where it is first accepted. What it shows was accepted, and what
was accepted is shown: as it is if it has a body, and otherwise by an entry that declares the same.
-/
structure Complete (s : ListedScope) : Prop where
  partition : (s.accepted ++ Entry.rejected [] s.entries).Perm s.entries
  order : s.shown.map Entry.name = (Entry.firsts s.accepted).map Entry.name
  names : (s.shown.map Entry.name).Nodup
  sound : s.shown ⊆ s.accepted
  complete : ∀ e ∈ s.accepted, ∃! d, d ∈ s.shown ∧ d.name = e.name ∧
    d.header.entity = e.header.entity ∧ (e.header.hasBody = true → d = e)

/-- What is shown of a scope is complete, whatever its declarations. -/
theorem complete (s : ListedScope) : s.Complete where
  partition := Entry.accepted_append_rejected_perm [] s.entries
  order := Entry.map_name_shown
  names := Entry.nodup_shown s.accepted
  sound := fun _ => Entry.mem_of_mem_shown
  complete := fun _ => Entry.existsUnique_shown (Entry.pairwise_accepted .nil s.entries)

end ListedScope

namespace Stmt

mutual

/-- The scopes in a statement, in the order in which they close. -/
def scopes (enclosing : Nat) : Stmt → List ListedScope
  | .exp _ _ | .ret _ _ => []
  | .block _ ds body => scopesAll (enclosing + 1) body ++
      [⟨enclosing, some "Block scope:", ds.map (VarDecl.asEntry .var)⟩]
  | .ifThen _ _ a => a.scopes enclosing
  | .ifElse _ _ a b => a.scopes enclosing ++ b.scopes enclosing
  | .whileDo _ _ b => b.scopes enclosing

/-- The scopes in statements, in the order in which they close. -/
def scopesAll (enclosing : Nat) : List Stmt → List ListedScope
  | [] => []
  | s :: rest => s.scopes enclosing ++ scopesAll enclosing rest

end

end Stmt

/-- The scope of the parameters, behind those of the body. That of a prototype is left out. -/
def FunDecl.scopes (f : FunDecl) : List ListedScope :=
  match f.body with
  | none => [⟨1, none, f.params.map (VarDecl.asEntry .param)⟩]
  | some b => b.toStmt.scopes 2 ++
      [⟨1, some s!"Function scope of '{f.name}':", f.params.map (VarDecl.asEntry .param)⟩]

/-- The scopes in a declaration of the outermost level. -/
def Decl.scopes : Decl → List ListedScope
  | .var _ => []
  | .function f => f.scopes

namespace Program

/-- The global scope. The routines are in it before anything is declared. -/
def globalScope (p : Program) : ListedScope :=
  ⟨0, some "Global scope:", routineEntries ++ p.decls.map Decl.asEntry⟩

/-- The scopes of a program, in the order in which they close. -/
def scopes (p : Program) : List ListedScope :=
  p.decls.flatMap Decl.scopes ++ [p.globalScope]

end Program

/-! ### Declarations of a scope

The frame of the analysis shows the entries accepted so far. One more declaration is accepted or
rejected by the frame just as by the entries. -/

namespace Diagnostic

/-- A name is declared again. -/
def isRedeclaration (d : Diagnostic) : Bool :=
  d.fault.kind = .redeclaration

/-- Without errors of declarations there is no redeclaration among them. -/
theorem filter_isRedeclaration {errors : List Diagnostic} (h : errors.filter ofDeclaration = []) :
    errors.filter isRedeclaration = [] := by
  refine filter_eq_nil (fun d hd => ?_) h
  obtain ⟨pos, fault⟩ := d
  cases fault with
  | redeclared role name => rfl
  | _ => cases hd

end Diagnostic

/-- The innermost frame of a table shows these entries, and these frames are around it. -/
def ScopeTable.Shows (S : ScopeTable) (outer : List Frame) (es : List Entry) : Prop :=
  ∃ f, S.frames = f :: outer ∧ f.Shows es

namespace ScopeTable

variable {S T : ScopeTable} {outer : List Frame} {es : List Entry} {e : Entry} {s : Symbol}

/-- A new scope shows nothing yet. -/
theorem shows_enter (S : ScopeTable) : S.enter.Shows S.frames [] :=
  ⟨Frame.empty, rfl, Frame.shows_empty⟩

/-- A name is taken if it is not among those of the entries. -/
theorem Shows.declare?_cases (h : S.Shows outer es) {x : String} (hname : e.name = x)
    (htext : s.text = e.line) :
    (x ∉ es.map Entry.name ∧ ∃ T, S.declare? x s = some T ∧ T.Shows outer (es ++ [e])) ∨
      (x ∈ es.map Entry.name ∧ S.declare? x s = none) := by
  obtain ⟨f, hframes, hf⟩ := h
  subst hname
  have hdeclare : S.declare? e.name s = (f.declare? e.name s).map fun g => ⟨g :: outer⟩ := by
    simp only [declare?, updateInner?, hframes]
  cases hg : f.declare? e.name s with
  | some g =>
    have hnew := hf.get?_eq_none_iff.mp (Frame.get?_eq_none_of_declare? hg)
    exact .inl ⟨hnew, ⟨g :: outer⟩, by rw [hdeclare, hg]; rfl, g, rfl, hf.declare hg htext⟩
  | none => exact .inr ⟨hf.mem_of_declare?_eq_none hg, by rw [hdeclare, hg]; rfl⟩

/-- The lines of a scope, with its heading, each indented by its depth. -/
theorem Shows.dump (h : S.Shows outer es) (heading : String) :
    S.dump heading = (Text.blanks (4 * outer.length) ++ heading) ::
      (Entry.shown es).map fun e => Text.blanks (4 * (outer.length + 1)) ++ e.line := by
  obtain ⟨f, hframes, hf⟩ := h
  have hblanks : ∀ t, Text.blanks (4 * outer.length) ++ "    " ++ t
      = Text.blanks (4 * (outer.length + 1)) ++ t := by
    intro t
    rw [show "    " = Text.blanks 4 from rfl, Text.blanks_append_blanks]
    rfl
  have hdepth : S.depth - 1 = outer.length := by
    simp [depth, hframes]
  have hsymbols : S.symbols = f.symbols.toList := by
    simp only [symbols, hframes]
  unfold ScopeTable.dump
  simp only [hdepth, hsymbols, hblanks]
  refine congrArg _ ?_
  have hlines := congrArg (List.map (Text.blanks (4 * (outer.length + 1)) ++ ·)) hf.map_text
  rw [List.map_map, List.map_map] at hlines
  exact hlines

end ScopeTable

namespace VarDecl

variable {role : Role} {S : ScopeTable} {outer : List Frame} {es : List Entry}

/-- A scope takes a variable if its name is new. -/
theorem fits_iff {d : VarDecl} : Entry.Fits es (d.asEntry role) ↔ d.name ∉ es.map Entry.name := by
  rw [Entry.fits_iff, asEntry, ← Decl.lookup_eq_none_iff_compatible, Header.lookup_eq_none_iff,
    List.forall_mem_map]
  simp only [List.mem_map, not_exists, not_and]
  rfl

/-- The table refuses what does not fit. -/
theorem declare?_of_not_fits (h : S.Shows outer es) {d : VarDecl} {l : Layout}
    (hfits : ¬Entry.Fits es (d.asEntry role)) : S.declare? d.name (.var d.name d.ty l) = none := by
  rcases h.declare?_cases (e := d.asEntry role) (x := d.name) (s := .var d.name d.ty l) rfl rfl
    with ⟨hnew, -⟩ | ⟨-, hnone⟩
  · exact absurd (fits_iff.mpr hnew) hfits
  · exact hnone

/-- A variable that is rejected leaves the table as it is. -/
theorem scopes_check_of_not_fits (h : S.Shows outer es) {level : Nat} {next : Int} {d : VarDecl}
    (hfits : ¬Entry.Fits es (d.asEntry role)) : (d.check role level S next).scopes = S := by
  simp only [check, declare?_of_not_fits h hfits, Option.getD_none]

/-- A variable is declared in a scope if it fits, and rejected otherwise. -/
theorem shows_check (role : Role) (level : Nat) (h : S.Shows outer es) (next : Int) (d : VarDecl) :
    (d.check role level S next).scopes.Shows outer (Entry.accepted es [d.asEntry role]) ∧
      (d.check role level S next).errors.filter Diagnostic.isRedeclaration =
        (Entry.rejected es [d.asEntry role]).filterMap Entry.refusal := by
  have herrors : (d.check role level S next).errors.filter Diagnostic.isRedeclaration =
      demand (S.declare? d.name (.var d.name d.ty (d.place level next).layout)).isSome d.pos
        (.redeclared role d.name) := by
    simp only [check, List.filter_append, filter_demand]
    rfl
  rw [herrors]
  by_cases hfits : Entry.Fits es (d.asEntry role)
  · rcases h.declare?_cases (e := d.asEntry role) (x := d.name)
      (s := .var d.name d.ty (d.place level next).layout) rfl rfl with ⟨-, T, hT,
        hshows⟩ | ⟨hknown, -⟩
    · rw [Entry.accepted_of_fits hfits, Entry.rejected_of_fits hfits]
      simp only [check, hT, Option.getD_some]
      exact ⟨hshows, rfl⟩
    · exact absurd hknown (fits_iff.mp hfits)
  · rw [scopes_check_of_not_fits h hfits, declare?_of_not_fits h hfits,
      Entry.accepted_of_not_fits hfits, Entry.rejected_of_not_fits hfits]
    exact ⟨h, rfl⟩

/-- Declarations one after the other, by induction on them. -/
theorem shows_checkAll (role : Role) (level : Nat) (h : S.Shows outer es) (next : Int)
    (ds : List VarDecl) :
    (checkAll role level S next ds).scopes.Shows outer (Entry.accepted es (ds.map (asEntry role))) ∧
      (checkAll role level S next ds).errors.filter Diagnostic.isRedeclaration =
        (Entry.rejected es (ds.map (asEntry role))).filterMap Entry.refusal := by
  induction ds generalizing S es next with
  | nil => exact ⟨h, rfl⟩
  | cons d rest ih =>
    obtain ⟨hscopes, herrors⟩ := shows_check role level h next d
    obtain ⟨hscopes', herrors'⟩ := ih hscopes (d.check role level S next).next
    rw [List.map_cons, Entry.accepted_cons, Entry.rejected_cons, List.filterMap_append, ← herrors,
      ← herrors', ← List.filter_append]
    exact ⟨hscopes', rfl⟩

end VarDecl

/-! ### Statements

A block opens a frame, declares its variables, and closes the frame behind its statements; the
scopes inside it have closed before. The induction is on the statement, and `Lists` collects what is
said of it. -/

/-- A dump lists these scopes, and the names that are declared again are those that they reject. -/
structure Lists (errors : List Diagnostic) (dump : List String) (scopes : List ListedScope) :
    Prop where
  dump : dump = scopes.flatMap ListedScope.lines
  refusals : (errors.filter Diagnostic.isRedeclaration).Perm (scopes.flatMap ListedScope.refusals)

namespace Lists

variable {errors errors' : List Diagnostic} {dump dump' : List String}
  {scopes scopes' : List ListedScope}

/-- A phrase without scopes in it lists nothing. -/
theorem silent (h : errors.filter Diagnostic.isRedeclaration = []) : Lists errors [] [] :=
  ⟨rfl, by rw [h]; exact .nil⟩

/-- Phrases one behind the other list their scopes in that order. -/
theorem append (h : Lists errors dump scopes) (h' : Lists errors' dump' scopes') :
    Lists (errors ++ errors') (dump ++ dump') (scopes ++ scopes') := by
  refine ⟨by rw [h.dump, h'.dump, List.flatMap_append], ?_⟩
  rw [List.filter_append, List.flatMap_append]
  exact h.refusals.append h'.refusals

/-- Errors in front that are no redeclarations. -/
theorem behind (h : errors.filter Diagnostic.isRedeclaration = [])
    (h' : Lists errors' dump scopes) : Lists (errors ++ errors') dump scopes :=
  (silent h).append h'

/-- Errors behind that are no redeclarations. -/
theorem ahead (h : Lists errors dump scopes)
    (h' : errors'.filter Diagnostic.isRedeclaration = []) :
    Lists (errors ++ errors') dump scopes := by
  have hboth := h.append (silent h')
  rwa [List.append_nil, List.append_nil] at hboth

/-- The declarations of a scope come before what is in it, and the scope is closed behind that. -/
theorem close {S : ScopeTable} {outer : List Frame} {es : List Entry} (heading : String)
    (hshows : S.Shows outer (Entry.accepted [] es))
    (hrefusals : errors.filter Diagnostic.isRedeclaration =
      (Entry.rejected [] es).filterMap Entry.refusal)
    (h : Lists errors' dump scopes) :
    Lists (errors ++ errors') (dump ++ S.dump heading)
      (scopes ++ [⟨outer.length, some heading, es⟩]) := by
  have hscope : Lists errors (S.dump heading) [⟨outer.length, some heading, es⟩] := by
    refine ⟨?_, ?_⟩
    · rw [hshows.dump, List.flatMap_singleton]
      rfl
    · rw [hrefusals, List.flatMap_singleton]
      exact .refl _
  -- a scope's own declarations are checked first, and are the last to be dumped
  have hboth := h.append hscope
  refine ⟨hboth.dump, List.Perm.trans ?_ hboth.refusals⟩
  rw [List.filter_append, List.filter_append]
  exact List.perm_append_comm

end Lists

namespace Stmt

variable (f : Enclosing) (S : ScopeTable) (next : Int)

/-- The scopes of statements that follow each other, if it is so for each of them. -/
theorem lists_checkAll {body : List Stmt}
    (ih : ∀ s ∈ body, ∀ next, Lists (s.check f S next).errors (s.check f S next).dump
      (s.scopes S.depth)) :
    Lists (checkAll f S next body).errors (checkAll f S next body).dump
      (scopesAll S.depth body) := by
  induction body generalizing next with
  | nil => exact .silent rfl
  | cons s rest hrest =>
    exact (ih s List.mem_cons_self next).append
      (hrest _ fun a ha => ih a (List.mem_cons_of_mem s ha))

/-- A test declares nothing. -/
theorem redeclarations_test (c : Construct) (t : Exp) :
    ((t.check S).errors ++ testErrors c (t.check S)).filter Diagnostic.isRedeclaration = [] :=
  Diagnostic.filter_isRedeclaration (filter_test S c t)

/-- The dump of a statement lists the scopes in it. -/
theorem lists_check (s : Stmt) :
    Lists (s.check f S next).errors (s.check f S next).dump (s.scopes S.depth) := by
  induction s using Stmt.induction generalizing S next with
  | exp p e => exact .silent (Diagnostic.filter_isRedeclaration (e.filter_check S))
  | block p ds body ih =>
    obtain ⟨hshows, herrors⟩ := VarDecl.shows_checkAll .var frameLevel S.shows_enter next ds
    have hdepth : (VarDecl.checkAll .var frameLevel S.enter next ds).scopes.depth =
        S.depth + 1 := by
      obtain ⟨g, hg, -⟩ := hshows
      rw [ScopeTable.depth, hg, List.length_cons]
      rfl
    have hbody := lists_checkAll f (VarDecl.checkAll .var frameLevel S.enter next ds).scopes
      (VarDecl.checkAll .var frameLevel S.enter next ds).next fun s hs next => ih s hs _ next
    rw [hdepth] at hbody
    exact .close "Block scope:" hshows herrors hbody
  | ifThen p t a ih => exact .behind (redeclarations_test S _ t) (ih _ _)
  | ifElse p t a b iha ihb =>
    exact (Lists.behind (redeclarations_test S _ t) (iha _ _)).append (ihb _ _)
  | whileDo p t b ih => exact .behind (redeclarations_test S _ t) (ih _ _)
  | ret p v =>
    cases v with
    | none => exact .silent (filter_demand ..)
    | some e =>
      refine .silent (Diagnostic.filter_isRedeclaration ?_)
      simp only [Stmt.check, List.filter_append, e.filter_check, filter_returnErrors,
        List.append_nil]

end Stmt

/-! ### Functions and programs

A function is entered into the global scope before its own scope opens, and the global scope closes
last. -/

/-- The body of a function is dumped like a block. -/
theorem Block.dump_check {f : Enclosing} {S : ScopeTable} {next : Int} {b : Block} :
    (b.check f S next).dump = (b.toStmt.check f S next).dump := by
  simp only [Block.check, Block.toStmt, Stmt.check]

namespace FunDecl

variable {S : ScopeTable} {es : List Entry} {f : FunDecl}

/-- The line of a function has the parameter names of this declaration. -/
theorem text_symbol : f.symbol.text = f.asEntry.line := by
  simp only [symbol, Symbol.text, asEntry, List.map_map]
  rfl

/-- The global scope after a function that it takes: the function is new, or is declared again, or
gets its body. -/
theorem shows_of_announce? (h : S.Shows [] es) (hfits : Entry.Fits es f.asEntry) {T : ScopeTable}
    (hT : f.announce? S = some T) : T.Shows [] (es ++ [f.asEntry]) := by
  obtain ⟨g, hframes, hg⟩ := h
  have hinner : S.lookupInner f.name = g.get? f.name := by
    simp [ScopeTable.lookupInner, hframes]
  unfold announce? at hT
  rw [hinner] at hT
  cases hget : g.get? f.name with
  | none =>
    simp only [hget] at hT
    rcases ScopeTable.Shows.declare?_cases ⟨g, hframes, hg⟩ (e := f.asEntry) (x := f.name) rfl
      text_symbol with ⟨-, T', hT', hshows⟩ | ⟨-, hnone⟩
    · rw [hT] at hT'
      cases hT'
      exact hshows
    · rw [hT] at hnone
      cases hnone
  | some known =>
    simp only [hget] at hT
    have hknown : f.name ∈ es.map Entry.name := by
      by_contra hnew
      rw [hg.get?_eq_none_iff.mpr hnew] at hget
      cases hget
    split at hT
    · split at hT
      · -- a prototype leaves the table as it is
        rename_i hnobody
        cases hT
        refine ⟨g, hframes, hg.again hknown ?_⟩
        show f.body.isSome = false
        simpa using hnobody
      · -- a body takes the place of the prototypes, as none of them has one
        rename_i hbody
        have hbody : f.body.isSome = true := by simpa [Option.isSome_iff_ne_none] using hbody
        split at hT
        · cases hT
        · obtain ⟨g', outer, k, hframes', hk, rfl⟩ := ScopeTable.updateInner?_eq hT
          rw [hframes] at hframes'
          cases hframes'
          refine ⟨k, rfl, hg.redefine hk text_symbol hbody fun d hd hname => ?_⟩
          have hboth := (hfits d hd hname).2.2
          rw [not_and] at hboth
          exact Bool.eq_false_iff.mpr fun hd => hboth hd hbody
    · cases hT

/-- A function is announced exactly if the global scope takes it. -/
theorem shows_announce (h : S.Shows [] es) (hS : S.Outermost (es.map Entry.header)) :
    ((f.announce? S).getD S).Shows [] (Entry.accepted es [f.asEntry]) ∧
      ((f.announce? S).getD S).Outermost ((Entry.accepted es [f.asEntry]).map Entry.header) ∧
      demand (f.announce? S).isSome f.pos (.redeclared .function f.name) =
        (Entry.rejected es [f.asEntry]).filterMap Entry.refusal := by
  have hiff : (f.announce? S).isSome = true ↔ Entry.Fits es f.asEntry := by
    rw [announce?_isSome_iff hS, Entry.fits_iff]
    rfl
  cases hT : f.announce? S with
  | none =>
    have hfits : ¬Entry.Fits es f.asEntry := by
      rw [← hiff, hT]
      nofun
    rw [Entry.accepted_of_not_fits hfits, Entry.rejected_of_not_fits hfits]
    exact ⟨h, hS, rfl⟩
  | some T =>
    have hfits : Entry.Fits es f.asEntry := by
      rw [← hiff, hT]
      rfl
    rw [Entry.accepted_of_fits hfits, Entry.rejected_of_fits hfits, List.map_append]
    exact ⟨shows_of_announce? h hfits hT, outermost_announce? hS hT, rfl⟩

/-- What is declared inside a function. -/
theorem lists_check (S : ScopeTable) (next : Int) (f : FunDecl)
    (hdepth : ((f.announce? S).getD S).depth = 1) :
    ∃ inner, (f.check S next).errors =
        demand (f.announce? S).isSome f.pos (.redeclared .function f.name) ++ inner ∧
      Lists inner (f.check S next).dump f.scopes := by
  obtain ⟨hshows, herrors⟩ := VarDecl.shows_checkAll .param frameLevel
    ((f.announce? S).getD S).shows_enter firstFrameOffset f.params
  generalize hD : VarDecl.checkAll .param frameLevel ((f.announce? S).getD S).enter
    firstFrameOffset f.params = D at hshows herrors
  cases hbody : f.body with
  | none =>
    refine ⟨D.errors, by simp only [check, hbody, hD], ?_⟩
    simp only [check, hbody, scopes]
    refine ⟨rfl, ?_⟩
    rw [herrors, List.flatMap_singleton]
    exact .refl _
  | some b =>
    have hinner : D.scopes.depth = 2 := by
      obtain ⟨g, hg, -⟩ := hshows
      rw [ScopeTable.depth, hg, List.length_cons]
      exact congrArg (· + 1) hdepth
    have hblock := b.toStmt.lists_check ⟨f.name, f.result⟩ D.scopes D.next
    rw [hinner, ← Block.errors_check, ← Block.dump_check] at hblock
    have hlists := Lists.close s!"Function scope of '{f.name}':" hshows herrors hblock
    rw [show ((f.announce? S).getD S).frames.length = 1 from hdepth] at hlists
    generalize hB : b.check ⟨f.name, f.result⟩ D.scopes D.next = B at hlists
    refine ⟨D.errors ++ B.errors ++ demand (f.result = .void || B.returns) f.pos (.noReturn f.name),
      by simp only [check, hbody, hD, hB, List.append_assoc], ?_⟩
    simp only [check, hbody, hD, hB, scopes]
    exact hlists.ahead (filter_demand ..)

end FunDecl

namespace Decl

variable {S : ScopeTable} {es : List Entry}

/-- A declaration of the outermost level: what becomes of its name, and what is declared inside. -/
theorem lists_check (h : S.Shows [] es) (hS : S.Outermost (es.map Entry.header)) (next : Int)
    (d : Decl) :
    (d.check S next).scopes.Shows [] (Entry.accepted es [d.asEntry]) ∧
      (d.check S next).scopes.Outermost ((Entry.accepted es [d.asEntry]).map Entry.header) ∧
      ∃ inner, (d.check S next).errors.filter Diagnostic.isRedeclaration =
          (Entry.rejected es [d.asEntry]).filterMap Entry.refusal ++
            inner.filter Diagnostic.isRedeclaration ∧
        Lists inner (d.check S next).dump d.scopes := by
  cases d with
  | var d =>
    obtain ⟨hshows, herrors⟩ := VarDecl.shows_check .var globalLevel h next d
    refine ⟨hshows, ?_, [], by rw [List.filter_nil, List.append_nil]; exact herrors, .silent rfl⟩
    show (d.check .var globalLevel S next).scopes.Outermost
      ((Entry.accepted es [d.asEntry .var]).map Entry.header)
    by_cases hfits : Entry.Fits es (d.asEntry .var)
    · rw [Entry.accepted_of_fits hfits, List.map_append]
      exact outermost_check_var hS (Entry.fits_iff.mp hfits)
    · rw [Entry.accepted_of_not_fits hfits, VarDecl.scopes_check_of_not_fits h hfits]
      exact hS
  | function f =>
    obtain ⟨hshows, houter, hrefused⟩ := FunDecl.shows_announce (f := f) h hS
    have hdepth : ((f.announce? S).getD S).depth = 1 := by
      obtain ⟨g, hg, -⟩ := hshows
      rw [ScopeTable.depth, hg]
      rfl
    obtain ⟨inner, herrors, hlists⟩ := f.lists_check S next hdepth
    have hscopes : (f.check S next).scopes = (f.announce? S).getD S := FunDecl.scopes_check.1
    refine ⟨hscopes ▸ hshows, hscopes ▸ houter, inner, ?_, hlists⟩
    show (f.check S next).errors.filter _ = (Entry.rejected es [f.asEntry]).filterMap _ ++ _
    rw [herrors, List.filter_append, filter_demand, ← hrefused]
    rfl

/-- The declarations of a program, by induction on them: the scopes of each one, and its place in
the global scope. -/
theorem lists_checkAll (h : S.Shows [] es) (hS : S.Outermost (es.map Entry.header)) (next : Int)
    (ds : List Decl) :
    (checkAll S next ds).scopes.Shows [] (Entry.accepted es (ds.map asEntry)) ∧
      (checkAll S next ds).dump = (ds.flatMap scopes).flatMap ListedScope.lines ∧
      ((checkAll S next ds).errors.filter Diagnostic.isRedeclaration).Perm
        ((Entry.rejected es (ds.map asEntry)).filterMap Entry.refusal ++
          (ds.flatMap scopes).flatMap ListedScope.refusals) := by
  induction ds generalizing S es next with
  | nil => exact ⟨h, rfl, .nil⟩
  | cons d rest ih =>
    obtain ⟨hshows, houter, inner, herrors, hlists⟩ := lists_check h hS next d
    obtain ⟨hshows', hdump, hrefusals⟩ := ih hshows houter (d.check S next).next
    refine ⟨?_, ?_, ?_⟩
    · rw [List.map_cons, Entry.accepted_cons]
      exact hshows'
    · rw [List.flatMap_cons, List.flatMap_append, ← hlists.dump, ← hdump]
      rfl
    · rw [checkAll, List.filter_append, herrors, List.map_cons,
        Entry.rejected_cons es d.asEntry (rest.map asEntry), List.filterMap_append,
        List.flatMap_cons, List.flatMap_append, List.append_assoc, List.append_assoc]
      -- the errors inside this declaration come before those of the names declared after it
      refine .append_left _ ((hlists.refusals.append hrefusals).trans ?_)
      exact List.perm_append_comm_assoc ..

end Decl

/-- Every program starts with the routines. -/
theorem ScopeTable.shows_initial : ScopeTable.initial.Shows [] routineEntries := by
  cases ScopeTable.represents_initial with
  | cons hf hrest =>
    cases hrest
    exact ⟨_, rfl, _, hf, rfl⟩

/-- The two routines are accepted first, in any program. -/
theorem accepted_routines (es : List Entry) :
    Entry.accepted [] (routineEntries ++ es) = Entry.accepted routineEntries es := rfl

/-- The routines come first in the global scope. -/
theorem Program.shown_globalScope (p : Program) :
    ∃ others, p.globalScope.shown = routineEntries ++ others := by
  obtain ⟨others, hothers⟩ := Entry.prefix_accepted routineEntries (p.decls.map Decl.asEntry)
  -- the routines are found first among the entries of their names
  refine ⟨(((Entry.firsts others).filter fun d => d.name ≠ "output").filter fun d =>
    d.name ≠ "input").map (Entry.completed (routineEntries ++ others)), ?_⟩
  show Entry.shown (Entry.accepted [] (routineEntries ++ _)) = _
  rw [accepted_routines, ← hothers]
  rfl

/-- The analysis of a program is the same whether scopes are dumped or not. The dump lists the
scopes of the program in the order in which they close, with a line for every name that a scope
accepts and none for a declaration that it rejects; the declarations that are rejected are those of
which a redeclaration is reported. -/
theorem analyze_lists (p : Program) :
    (analyze p true).errors = (analyze p false).errors ∧
    (analyze p true).program = (analyze p false).program ∧
    (analyze p false).dump = [] ∧
    (analyze p true).dump = p.scopes.flatMap ListedScope.lines ∧
    ((analyze p true).errors.filter Diagnostic.isRedeclaration).Perm
      (p.scopes.flatMap ListedScope.refusals) ∧
    (∀ s ∈ p.scopes, s.Complete) ∧
    ∃ others, p.globalScope.shown = routineEntries ++ others := by
  obtain ⟨hshows, hdump, hrefusals⟩ := Decl.lists_checkAll ScopeTable.shows_initial
    ScopeTable.outermost_initial 0 p.decls
  refine ⟨rfl, rfl, rfl, ?_, ?_, fun s _ => s.complete, p.shown_globalScope⟩
  · rw [analyze_eq, if_pos rfl, hdump, hshows.dump, Program.scopes, List.flatMap_append,
      List.flatMap_singleton]
    rfl
  · rw [errors_analyze, Program.scopes, List.flatMap_append, List.flatMap_singleton]
    exact hrefusals.trans List.perm_append_comm

example :
    ((parse "int f(int a); int f(int b) \x7b \x7b int c; int c; \x7d return b; \x7d").toOption.map
      fun tree => (analyze tree true).dump) =
      some ["            Block scope:", "                c : int", "        Block scope:",
        "    Function scope of 'f':", "        b : int", "Global scope:",
        "    Function input : int ()", "    Function output : void (x : int)",
        "    Function f : int (b : int)"] := by
  decide +kernel

end MiniC
