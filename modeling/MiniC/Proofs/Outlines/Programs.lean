import MiniC.Proofs.Grammar.Placement
import MiniC.Proofs.Grammar.Trees
import MiniC.Proofs.Outlines.Lines

/-!
# What an outline tells

The outline of a parsed program tells the program, but for the positions. Each node of the tree has
a label, and from the label and what is below it the node is put together again. An expression and
the statement that consists of it have the same outline, but no place in a tree can take both.

* `Program.tree`: a program as a tree of labels, of which the outline are the lines
* `Phrase.assemble`: a part of a program from its label and its parts
* `Program.readOutline`: the program from the text of its outline
* `outline_determines_program`: parsed programs
-/

namespace MiniC

/-! ### Programs as trees of labels

A label keeps what the line of a node says, as data. A condition without an alternative and one with
it are told apart by the number of children. -/

def VarDecl.tree (d : VarDecl) : Node :=
  .mk (.varDecl d.name d.base d.shape) []

mutual

/-- The tree of an expression. What is assigned to is a child like a value. -/
def Exp.tree : Exp → Node
  | .int _ n => .mk (.int n) []
  | .bool _ b => .mk (.bool b) []
  | .nil _ => .mk .nil []
  | .unary _ _ op e => .mk (.unary op) [e.tree]
  | .binary _ _ op l r => .mk (.binary op) [l.tree, r.tree]
  | .var _ v => .mk (.use v.name) []
  | .element _ v i => .mk (.use v.name) [i.tree]
  | .assign _ _ v e => .mk .assign [.mk (.use v.name) [], e.tree]
  | .assignElement _ _ v i e => .mk .assign [.mk (.use v.name) [i.tree], e.tree]
  | .call _ _ callee args => .mk (.call callee) (Exp.trees args)

def Exp.trees : List Exp → List Node
  | [] => []
  | e :: rest => e.tree :: Exp.trees rest

end

mutual

/-- The tree of a statement. -/
def Stmt.tree : Stmt → Node
  | .exp _ e => e.tree
  | .block _ ds body => .mk .block (ds.map VarDecl.tree ++ Stmt.trees body)
  | .ifThen _ t a => .mk .ifThen [t.tree, a.tree]
  | .ifElse _ t a b => .mk .ifThen [t.tree, a.tree, .mk .otherwise [b.tree]]
  | .whileDo _ t b => .mk .whileDo [t.tree, b.tree]
  | .ret _ v => .mk .ret (v.map Exp.tree).toList

def Stmt.trees : List Stmt → List Node
  | [] => []
  | s :: rest => s.tree :: Stmt.trees rest

end

def Block.tree (b : Block) : Node :=
  .mk .block (b.decls.map VarDecl.tree ++ Stmt.trees b.stmts)

def FunDecl.paramsTree (f : FunDecl) : Node :=
  if f.params.isEmpty then .mk .noParameters [] else .mk .parameters (f.params.map VarDecl.tree)

def FunDecl.bodyTree (f : FunDecl) : Node :=
  match f.body with
  | some body => body.tree
  | none => .mk .prototype []

def FunDecl.tree (f : FunDecl) : Node :=
  .mk (.funDecl f.name f.result) [f.paramsTree, f.bodyTree]

def Decl.tree : Decl → Node
  | .var d => d.tree
  | .function f => f.tree

def Program.tree (p : Program) : Node :=
  .mk .program (p.decls.map Decl.tree)

/-! ### Outlines as lines of trees

The printer goes down the program, and so does the tree of labels, so their lines agree node by
node. -/

/-- A line as an outline has it. -/
def Line.outline (l : Line) : OutlineLine :=
  ⟨l.1, l.2.text⟩

/-- Two words with a blank between them. -/
theorem text_pair {front a b : String} (h : front = a ++ " ") :
    front ++ b = " ".intercalate [a, b] := by
  rw [h, String.intercalate_cons_cons, String.intercalate_singleton]

/-- A word, a name and what it is. -/
theorem text_name {front a name b : String} (h : front = a ++ " ") :
    front ++ name ++ " : " ++ b = " ".intercalate [a, name, ":", b] := by
  have hcolon : " : " = " " ++ ":" ++ " " := rfl
  simp only [h, hcolon, String.intercalate_cons_cons, String.intercalate_singleton,
    String.append_assoc]

/-- The line of a variable is that of its label. -/
theorem VarDecl.outline_eq (depth : Nat) (d : VarDecl) :
    [d.outline depth] = (d.tree.lines depth).map Line.outline := by
  have htext : d.outline depth =
      ⟨depth, s!"VarDec: {d.name} : {typeText d.base d.shape}"⟩ := by
    obtain ⟨p, base, name, shape, layout⟩ := d
    cases shape with
    | array size => simp only [VarDecl.outline, typeText, String.append_assoc, toString]
    | _ => rfl
  rw [htext]
  exact congrArg (fun t => [OutlineLine.mk depth t]) (text_name rfl)

/-- The lines of a node, if those below it are the lines of its children. -/
theorem outline_mk {depth : Nat} {label : Label} {text : String} {children : List Node}
    {below : List OutlineLine} (htext : text = label.text)
    (hbelow : below = (Node.linesAll (depth + 1) children).map Line.outline) :
    ⟨depth, text⟩ :: below = ((Node.mk label children).lines depth).map Line.outline := by
  rw [Node.lines, List.map_cons, htext, hbelow]
  rfl

/-- The lines of two lists of nodes. -/
theorem linesAll_append (depth : Nat) (ns ns' : List Node) :
    Node.linesAll depth (ns ++ ns') = Node.linesAll depth ns ++ Node.linesAll depth ns' := by
  induction ns with
  | nil => rfl
  | cons n ns ih => rw [List.cons_append, Node.linesAll, Node.linesAll, ih, List.append_assoc]

/-- The lines of variables are those of their labels. -/
theorem VarDecl.outlines_eq (depth : Nat) (ds : List VarDecl) :
    ds.map (VarDecl.outline depth) = (Node.linesAll depth (ds.map VarDecl.tree)).map
      Line.outline := by
  induction ds with
  | nil => rfl
  | cons d ds ih =>
    rw [List.map_cons, List.map_cons, Node.linesAll, List.map_append, ← ih, ← d.outline_eq]
    rfl

/-- The line of a variable in an expression is that of its label. -/
theorem VarUse.outline_eq (depth : Nat) (v : VarUse) :
    v.outline depth = ⟨depth, (Label.use v.name).text⟩ :=
  congrArg (OutlineLine.mk depth) (text_pair rfl)

mutual

/-- The outline of an expression are the lines of its tree. -/
theorem Exp.outline_eq (depth : Nat) (e : Exp) :
    e.outline depth = (e.tree.lines depth).map Line.outline := by
  cases e with
  | int p n => exact outline_mk (text_pair rfl) rfl
  | bool p b => cases b <;> rfl
  | nil p => rfl
  | unary p ty op e =>
    refine outline_mk (text_pair rfl) ?_
    rw [Exp.outline_eq (depth + 1) e, Node.linesAll, Node.linesAll, List.append_nil]
  | binary p ty op l r =>
    refine outline_mk (text_pair rfl) ?_
    rw [Exp.outline_eq (depth + 1) l, Exp.outline_eq (depth + 1) r, Node.linesAll, Node.linesAll,
      Node.linesAll, List.append_nil, List.map_append]
  | var ty v => exact outline_mk (text_pair rfl) rfl
  | element ty v i =>
    refine outline_mk (text_pair rfl) ?_
    rw [Exp.outline_eq (depth + 1) i, Node.linesAll, Node.linesAll, List.append_nil]
  | assign p ty v e =>
    refine outline_mk rfl ?_
    rw [VarUse.outline_eq, Exp.outline_eq (depth + 1) e]
    simp only [Node.linesAll, List.append_nil, List.map_append]
    rfl
  | assignElement p ty v i e =>
    refine outline_mk rfl ?_
    rw [VarUse.outline_eq, Exp.outline_eq (depth + 2) i, Exp.outline_eq (depth + 1) e]
    simp only [Node.linesAll, Node.lines, List.append_nil, List.map_append, List.map_cons,
      List.cons_append]
    rfl
  | call p ty callee args =>
    exact outline_mk (text_pair rfl) (Exp.outlineAll_eq (depth + 1) args)

theorem Exp.outlineAll_eq (depth : Nat) (es : List Exp) :
    Exp.outlineAll depth es = (Node.linesAll depth (Exp.trees es)).map Line.outline := by
  cases es with
  | nil => rfl
  | cons e rest =>
    rw [Exp.outlineAll, Exp.trees, Node.linesAll, List.map_append, Exp.outline_eq depth e,
      Exp.outlineAll_eq depth rest]

end

mutual

/-- The outline of a statement are the lines of its tree. -/
theorem Stmt.outline_eq (depth : Nat) (s : Stmt) :
    s.outline depth = (s.tree.lines depth).map Line.outline := by
  cases s with
  | exp p e => exact e.outline_eq depth
  | block p ds body =>
    refine outline_mk rfl ?_
    rw [linesAll_append, List.map_append, VarDecl.outlines_eq, Stmt.outlineAll_eq (depth + 1) body]
  | ifThen p t a =>
    refine outline_mk rfl ?_
    rw [t.outline_eq, Stmt.outline_eq (depth + 1) a]
    simp only [Node.linesAll, List.append_nil, List.map_append]
  | ifElse p t a b =>
    refine outline_mk rfl ?_
    rw [t.outline_eq, Stmt.outline_eq (depth + 1) a, Stmt.outline_eq (depth + 2) b]
    simp only [Node.linesAll, Node.lines, List.append_nil, List.map_append, List.map_cons,
      List.append_assoc]
    rfl
  | whileDo p t b =>
    refine outline_mk rfl ?_
    rw [t.outline_eq, Stmt.outline_eq (depth + 1) b]
    simp only [Node.linesAll, List.append_nil, List.map_append]
  | ret p v =>
    cases v with
    | none => rfl
    | some e =>
      refine outline_mk rfl ?_
      rw [e.outline_eq]
      simp only [Option.map_some, Option.toList_some, Node.linesAll, List.append_nil]

theorem Stmt.outlineAll_eq (depth : Nat) (body : List Stmt) :
    Stmt.outlineAll depth body = (Node.linesAll depth (Stmt.trees body)).map Line.outline := by
  cases body with
  | nil => rfl
  | cons s rest =>
    rw [Stmt.outlineAll, Stmt.trees, Node.linesAll, List.map_append, Stmt.outline_eq depth s,
      Stmt.outlineAll_eq depth rest]

end

/-- The lines of the parameters of a function, of which there may be none. -/
theorem FunDecl.outlineParams_eq (depth : Nat) (f : FunDecl) :
    f.outlineParams depth = (f.paramsTree.lines depth).map Line.outline := by
  unfold FunDecl.outlineParams FunDecl.paramsTree
  split
  · rfl
  · exact outline_mk rfl (VarDecl.outlines_eq (depth + 1) f.params)

/-- The outline of a declaration are the lines of its tree. -/
theorem Decl.outline_eq (depth : Nat) (d : Decl) :
    d.outline depth = (d.tree.lines depth).map Line.outline := by
  cases d with
  | var d => exact d.outline_eq depth
  | function f =>
    refine outline_mk (text_name rfl) ?_
    rw [f.outlineParams_eq]
    simp only [Node.linesAll, List.append_nil, List.map_append, FunDecl.bodyTree]
    cases f.body with
    | none => rfl
    | some b => exact congrArg _ (Stmt.outline_eq (depth + 1) (.block b.pos b.decls b.stmts))

/-- The outline of a program are the lines of its tree. -/
theorem Program.outline_eq (p : Program) : p.outline = (p.tree.lines 0).map Line.outline := by
  refine outline_mk rfl ?_
  induction p.decls with
  | nil => rfl
  | cons d ds ih =>
    rw [List.flatMap_cons, List.map_cons, Node.linesAll, List.map_append, ← ih, ← d.outline_eq]

/-- The text of an outline is that of these lines. -/
theorem Program.toList_outlineText (p : Program) :
    p.outlineText.toList = (p.tree.lines 0).flatMap fun l => l.text ++ ['\n'] := by
  rw [Program.outlineText, Program.outline_eq, String.toList_join, List.flatMap_map,
    List.flatMap_map]
  congr 1
  funext l
  rw [OutlineLine.text, Text.blanks, String.toList_append, String.toList_append,
    String.toList_ofList]
  rfl

/-! ### Putting programs together

`Phrase.assemble` is the inverse of the printer on labels. A node whose children are of the wrong
kinds or number stands for nothing, and which phrase a node stands for does not depend on where it
stands. -/

/-- A part of a program that a node can stand for. -/
inductive Phrase where
  | exp (e : Exp)
  | stmt (s : Stmt)
  | otherwise (s : Stmt)
  | varDecl (d : VarDecl)
  | parameters (ds : List VarDecl)
  | prototype
  | funDecl (f : FunDecl)
  | program (ds : List Decl)

namespace Phrase

/-- Where everything stands that is put together. -/
def here : Pos :=
  ⟨0, 0⟩

def exp? : Phrase → Option Exp
  | .exp e => some e
  | _ => none

/-- The statement that a phrase is in the place of a statement. -/
def stmt? : Phrase → Option Stmt
  | .exp e => some (.exp here e)
  | .stmt s => some s
  | _ => none

def varDecl? : Phrase → Option VarDecl
  | .varDecl d => some d
  | _ => none

def decl? : Phrase → Option Decl
  | .varDecl d => some (.var d)
  | .funDecl f => some (.function f)
  | _ => none

/-- The phrase with a label and these parts; nothing if they do not belong together. -/
def assemble : Label → List Phrase → Option Phrase
  | .int n, [] => some (.exp (.int here n))
  | .bool b, [] => some (.exp (.bool here b))
  | .nil, [] => some (.exp (.nil here))
  | .unary op, [.exp e] => some (.exp (.unary here none op e))
  | .binary op, [.exp l, .exp r] => some (.exp (.binary here none op l r))
  | .use x, [] => some (.exp (.var none ⟨here, x, none⟩))
  | .use x, [.exp i] => some (.exp (.element none ⟨here, x, none⟩ i))
  | .assign, [.exp (.var _ v), .exp e] => some (.exp (.assign here none v e))
  | .assign, [.exp (.element _ v i), .exp e] => some (.exp (.assignElement here none v i e))
  | .call callee, args => some (.exp (.call here none callee (args.filterMap exp?)))
  | .block, parts =>
    some (.stmt (.block here (parts.filterMap varDecl?) (parts.filterMap stmt?)))
  | .ifThen, [.exp t, a] => a.stmt?.map fun a => .stmt (.ifThen here t a)
  | .ifThen, [.exp t, a, .otherwise b] => a.stmt?.map fun a => .stmt (.ifElse here t a b)
  | .otherwise, [b] => b.stmt?.map .otherwise
  | .whileDo, [.exp t, b] => b.stmt?.map fun b => .stmt (.whileDo here t b)
  | .ret, [] => some (.stmt (.ret here none))
  | .ret, [.exp e] => some (.stmt (.ret here (some e)))
  | .varDecl x base shape, [] => some (.varDecl ⟨here, base, x, shape, none⟩)
  | .noParameters, [] => some (.parameters [])
  | .parameters, parts => some (.parameters (parts.filterMap varDecl?))
  | .prototype, [] => some .prototype
  | .funDecl x base, [.parameters ds, .prototype] =>
    some (.funDecl ⟨here, base, x, ds, none, 0, none⟩)
  | .funDecl x base, [.parameters ds, .stmt (.block _ locals body)] =>
    some (.funDecl ⟨here, base, x, ds, some ⟨here, locals, body⟩, 0, none⟩)
  | .program, parts => some (.program (parts.filterMap decl?))
  | _, _ => none

end Phrase

mutual

/-- The phrase that a tree stands for. -/
def Node.phrase? : Node → Option Phrase
  | .mk label children => do Phrase.assemble label (← Node.phrases? children)

def Node.phrases? : List Node → Option (List Phrase)
  | [] => some []
  | n :: rest => do return (← n.phrase?) :: (← Node.phrases? rest)

end

/-- The phrase of a statement: that of an expression is the expression. -/
def Stmt.phrase : Stmt → Phrase
  | .exp _ e => .exp e
  | s => .stmt s

/-- A statement can be taken from its phrase, also if it is an expression. -/
theorem Stmt.stmt?_phrase (s : Stmt) :
    (s.move Pos.nowhere).phrase.stmt? = some (s.move Pos.nowhere) := by
  cases s <;> rfl

/-- The same, with what is made of the statement. -/
theorem Stmt.map_stmt?_phrase (s : Stmt) (f : Stmt → Phrase) :
    (s.move Pos.nowhere).phrase.stmt?.map f = some (f (s.move Pos.nowhere)) := by
  rw [s.stmt?_phrase, Option.map_some]

/-- A variable is put together again from its label. -/
theorem VarDecl.phrase?_tree (d : VarDecl) :
    d.tree.phrase? = some (.varDecl (d.bare.move Pos.nowhere)) := rfl

/-- Expressions are put together again if each of them is. Induction on the list. -/
theorem Exp.phrases?_trees {es : List Exp}
    (ih : ∀ e ∈ es, e.tree.phrase? = some (.exp (e.bare.move Pos.nowhere))) :
    Node.phrases? (Exp.trees es) =
      some ((Exp.moveAll Pos.nowhere (Exp.bareAll es)).map .exp) := by
  induction es with
  | nil => rfl
  | cons e es hes =>
    obtain ⟨he, hrest⟩ := List.forall_mem_cons.mp ih
    simp only [Exp.trees, Node.phrases?, he, hes hrest]
    rfl

/-- An expression is put together again from its tree. -/
theorem Exp.phrase?_tree (e : Exp) : e.tree.phrase? = some (.exp (e.bare.move Pos.nowhere)) := by
  induction e using Exp.induction with
  | int p n => rfl
  | bool p b => rfl
  | nil p => rfl
  | unary p ty op e ih =>
    simp only [Exp.tree, Node.phrase?, Node.phrases?, ih]
    rfl
  | binary p ty op l r ihl ihr =>
    simp only [Exp.tree, Node.phrase?, Node.phrases?, ihl, ihr]
    rfl
  | var ty v => rfl
  | element ty v i ih =>
    simp only [Exp.tree, Node.phrase?, Node.phrases?, ih]
    rfl
  | assign p ty v e ih =>
    simp only [Exp.tree, Node.phrase?, Node.phrases?, ih]
    rfl
  | assignElement p ty v i e ihi ihe =>
    simp only [Exp.tree, Node.phrase?, Node.phrases?, ihi, ihe]
    rfl
  | call p ty callee args ih =>
    have hargs : ((Exp.moveAll Pos.nowhere (Exp.bareAll args)).map Phrase.exp).filterMap
        Phrase.exp? = Exp.moveAll Pos.nowhere (Exp.bareAll args) := by
      rw [List.filterMap_map]
      exact List.filterMap_some
    simp only [Exp.tree, Node.phrase?, Exp.phrases?_trees ih, Option.bind_eq_bind, Option.bind_some,
      Phrase.assemble, hargs]
    rfl

/-- Two lists of nodes are put together one after the other. -/
theorem Node.phrases?_append {ns ns' : List Node} {ps ps' : List Phrase}
    (h : Node.phrases? ns = some ps) (h' : Node.phrases? ns' = some ps') :
    Node.phrases? (ns ++ ns') = some (ps ++ ps') := by
  induction ns generalizing ps with
  | nil =>
    cases h
    exact h'
  | cons n ns ih =>
    simp only [Node.phrases?, Option.bind_eq_bind, Option.bind_eq_some_iff] at h
    obtain ⟨q, hq, qs, hqs, heq⟩ := h
    cases heq
    simp only [List.cons_append, Node.phrases?, hq, ih hqs]
    rfl

/-- Variables are put together again. -/
theorem VarDecl.phrases?_trees (ds : List VarDecl) :
    Node.phrases? (ds.map VarDecl.tree) =
      some (((ds.map VarDecl.bare).map (VarDecl.move Pos.nowhere)).map .varDecl) := by
  induction ds with
  | nil => rfl
  | cons d ds ih =>
    simp only [List.map_cons, Node.phrases?, VarDecl.phrase?_tree, ih]
    rfl

/-- Statements are put together again if each of them is. Induction on the list. -/
theorem Stmt.phrases?_trees {body : List Stmt}
    (ih : ∀ s ∈ body, s.tree.phrase? = some (s.bare.move Pos.nowhere).phrase) :
    Node.phrases? (Stmt.trees body) =
      some ((Stmt.moveAll Pos.nowhere (Stmt.bareAll body)).map Stmt.phrase) := by
  induction body with
  | nil => rfl
  | cons s body hbody =>
    obtain ⟨hs, hrest⟩ := List.forall_mem_cons.mp ih
    simp only [Stmt.trees, Node.phrases?, hs, hbody hrest]
    rfl

/-- All phrases of statements are statements. -/
theorem filterMap_stmt?_trees (body : List Stmt) :
    ((Stmt.moveAll Pos.nowhere body).map Stmt.phrase).filterMap Phrase.stmt? =
      Stmt.moveAll Pos.nowhere body := by
  induction body with
  | nil => rfl
  | cons s body ih =>
    rw [Stmt.moveAll, List.map_cons, List.filterMap_cons_some s.stmt?_phrase, ih]

/-- None of them is a declaration of a variable. -/
theorem filterMap_varDecl?_phrases (body : List Stmt) :
    (body.map Stmt.phrase).filterMap Phrase.varDecl? = [] := by
  rw [List.filterMap_map, List.filterMap_eq_nil_iff]
  intro s _
  cases s <;> rfl

/-- All declarations of variables are that. -/
theorem filterMap_varDecl?_varDecls (ds : List VarDecl) :
    (ds.map Phrase.varDecl).filterMap Phrase.varDecl? = ds := by
  rw [List.filterMap_map]
  exact List.filterMap_some

/-- None of them is a statement. -/
theorem filterMap_stmt?_varDecls (ds : List VarDecl) :
    (ds.map Phrase.varDecl).filterMap Phrase.stmt? = [] := by
  rw [List.filterMap_map, List.filterMap_eq_nil_iff]
  exact fun _ _ => rfl

/-- A block is put together from its variables and its statements, which no phrase can both be. -/
theorem assemble_block (ds : List VarDecl) (body : List Stmt) :
    Phrase.assemble .block (ds.map .varDecl ++ (Stmt.moveAll Pos.nowhere body).map Stmt.phrase) =
      some (.stmt (.block Phrase.here ds (Stmt.moveAll Pos.nowhere body))) := by
  simp only [Phrase.assemble, List.filterMap_append, filterMap_varDecl?_varDecls,
    filterMap_varDecl?_phrases, filterMap_stmt?_varDecls, filterMap_stmt?_trees, List.append_nil,
    List.nil_append]

/-- A statement is put together again from its tree. -/
theorem Stmt.phrase?_tree (s : Stmt) :
    s.tree.phrase? = some (s.bare.move Pos.nowhere).phrase := by
  induction s using Stmt.induction with
  | exp p e => exact e.phrase?_tree
  | block p ds body ih =>
    rw [Stmt.tree, Node.phrase?, Node.phrases?_append (VarDecl.phrases?_trees ds)
      (Stmt.phrases?_trees ih)]
    exact assemble_block ..
  | ifThen p t a ih =>
    simp only [Stmt.tree, Node.phrase?, Node.phrases?, t.phrase?_tree, ih]
    exact a.bare.map_stmt?_phrase _
  | ifElse p t a b iha ihb =>
    have hother : (Node.mk .otherwise [b.tree]).phrase? =
        some (.otherwise (b.bare.move Pos.nowhere)) := by
      simp only [Node.phrase?, Node.phrases?, ihb]
      exact b.bare.map_stmt?_phrase _
    rw [Stmt.tree, Node.phrase?]
    simp only [Node.phrases?, t.phrase?_tree, iha, hother]
    exact a.bare.map_stmt?_phrase _
  | whileDo p t b ih =>
    simp only [Stmt.tree, Node.phrase?, Node.phrases?, t.phrase?_tree, ih]
    exact b.bare.map_stmt?_phrase _
  | ret p v =>
    cases v with
    | none => rfl
    | some e =>
      simp only [Stmt.tree, Option.map_some, Option.toList_some, Node.phrase?, Node.phrases?,
        e.phrase?_tree]
      rfl

namespace Grammar

/-! ### Parsed programs

The tree from the outline has no positions and no types or layouts in it, and neither has a parsed
one once its positions are erased. -/

/-- The parameters of a function are put together again, also if there are none. -/
theorem phrase?_paramsTree {f : FunDecl} (h : f.params.map VarDecl.bare = f.params) :
    f.paramsTree.phrase? = some (.parameters (f.params.map (VarDecl.move Pos.nowhere))) := by
  unfold FunDecl.paramsTree
  split
  · rename_i hempty
    rw [List.isEmpty_iff.mp hempty]
    rfl
  · rw [Node.phrase?, VarDecl.phrases?_trees, h]
    show some (Phrase.parameters ((List.map _ _).filterMap _)) = _
    rw [filterMap_varDecl?_varDecls]

/-- The body of a function is put together like a block. -/
theorem phrase?_tree_block {b : Block} (hds : b.decls.map VarDecl.bare = b.decls)
    (hbody : Stmt.bareAll b.stmts = b.stmts) : b.tree.phrase? = some (.stmt (.block Phrase.here
      (b.decls.map (VarDecl.move Pos.nowhere)) (Stmt.moveAll Pos.nowhere b.stmts))) := by
  have hphrase := Stmt.phrase?_tree (.block b.pos b.decls b.stmts)
  rw [Stmt.bare, hds, hbody] at hphrase
  exact hphrase

/-- A function in which nothing is recorded is put together again from its tree. -/
theorem phrase?_tree_function {f : FunDecl} (hparams : f.params.map VarDecl.bare = f.params)
    (hbody : ∀ b ∈ f.body, b.decls.map VarDecl.bare = b.decls ∧ Stmt.bareAll b.stmts = b.stmts)
    (hend : f.frameEnd = 0) (hentry : f.entry = none) :
    f.tree.phrase? = some (.funDecl (f.move Pos.nowhere)) := by
  have hparts := phrase?_paramsTree hparams
  obtain ⟨pos, result, name, params, body, frameEnd, entry⟩ := f
  obtain rfl : frameEnd = 0 := hend
  obtain rfl : entry = none := hentry
  rw [FunDecl.tree, Node.phrase?]
  cases body with
  | none =>
    simp only [Node.phrases?, hparts]
    rfl
  | some b =>
    obtain ⟨hds, hstmts⟩ := hbody b rfl
    have hblock : FunDecl.bodyTree ⟨pos, result, name, params, some b, 0, none⟩ = b.tree := rfl
    simp only [Node.phrases?, hparts, hblock, phrase?_tree_block hds hstmts]
    rfl

/-- A declaration of a parsed program is put together again from its tree. -/
theorem Declaration.phrase?_tree {ts : List Token} {d : Decl} (h : Declaration ts d) :
    ∃ ph, d.tree.phrase? = some ph ∧ ph.decl? = some (d.move Pos.nowhere) := by
  cases h with
  | @var _ d h =>
    refine ⟨_, d.phrase?_tree, ?_⟩
    rw [h.bare_eq]
    rfl
  | prototype hty hname hl hparams hr hsemi =>
    exact ⟨_, phrase?_tree_function hparams.map_eq nofun rfl rfl, rfl⟩
  | definition hty hname hl hparams hr hbrace hds hbody hstop =>
    refine ⟨_, phrase?_tree_function hparams.map_eq ?_ rfl rfl, rfl⟩
    rintro _ ⟨⟩
    exact ⟨hds.map_eq fun _ _ h => h.bare_eq, hbody.bareAll_eq⟩

/-- The declarations of a parsed program are put together again from its tree. -/
theorem Many.phrases?_trees {ts : List Token} {ds : List Decl} (h : Many Declaration ts ds) :
    ∃ ps, Node.phrases? (ds.map Decl.tree) = some ps ∧
      ps.filterMap Phrase.decl? = ds.map (Decl.move Pos.nowhere) := by
  induction h with
  | nil => exact ⟨[], rfl, rfl⟩
  | cons h _ ih =>
    obtain ⟨ph, htree, hph⟩ := h.phrase?_tree
    obtain ⟨ps, htrees, hps⟩ := ih
    refine ⟨ph :: ps, ?_, by rw [List.filterMap_cons_some hph, hps, List.map_cons]⟩
    simp only [List.map_cons, Node.phrases?, htree, htrees]
    rfl

end Grammar

/-! ### Names

The text of a line can be read back if the names on it are words, without a blank or an end of line.
Names of a program are spellings of identifiers, and all of them come from tokens: induction over
the grammar. -/

/-- All names on the lines of a tree are words. -/
def Node.Proper (n : Node) : Prop :=
  ∀ depth, ∀ l ∈ n.lines depth, l.2.Proper

/-- The lines of nodes are those of one of them. -/
theorem Node.mem_linesAll {depth : Nat} {ns : List Node} {l : Line} :
    l ∈ Node.linesAll depth ns ↔ ∃ n ∈ ns, l ∈ n.lines depth := by
  induction ns with
  | nil => simp [Node.linesAll]
  | cons n ns ih => simp [Node.linesAll, ih]

/-- The names below a node are on its line or on those of its children. -/
theorem Node.proper_mk {label : Label} {children : List Node} (hlabel : label.Proper)
    (h : ∀ n ∈ children, n.Proper) : (Node.mk label children).Proper := by
  intro depth
  rw [Node.lines]
  refine List.forall_mem_cons.mpr ⟨hlabel, fun l hl => ?_⟩
  obtain ⟨n, hn, hl⟩ := Node.mem_linesAll.mp hl
  exact h n hn _ l hl

/-- A line without a name. -/
theorem Node.proper_nameless {label : Label} {children : List Node} (hlabel : label.name? = none)
    (h : ∀ n ∈ children, n.Proper) : (Node.mk label children).Proper := by
  refine Node.proper_mk (fun name hname => ?_) h
  rw [hlabel] at hname
  cases hname

/-- A line with a name. -/
theorem Node.proper_named {label : Label} {children : List Node} {name : String}
    (hlabel : label.name? = some name) (hname : Label.IsWord name) (h : ∀ n ∈ children, n.Proper) :
    (Node.mk label children).Proper := by
  refine Node.proper_mk (fun name' hname' => ?_) h
  rw [hlabel] at hname'
  cases hname'
  exact hname

namespace Grammar

/-- The names among the tokens are words. -/
def Worded (ts : List Token) : Prop :=
  ∀ t ∈ ts, t.kind = .identifier → Label.IsWord t.text

/-- Names among tokens, one token at a time. -/
theorem worded_cons {t : Token} {ts : List Token} :
    Worded (t :: ts) ↔ (t.kind = .identifier → Label.IsWord t.text) ∧ Worded ts :=
  List.forall_mem_cons

/-- Names among tokens, phrase by phrase. -/
theorem worded_append {ts us : List Token} : Worded (ts ++ us) ↔ Worded ts ∧ Worded us :=
  List.forall_mem_append

/-- Parentheses have no names. -/
theorem Wrapped.worded {inner ts : List Token} (h : Wrapped inner ts) (hts : Worded ts) :
    Worded inner := by
  induction h with
  | refl => exact hts
  | parens _ _ _ ih => exact ih (worded_append.mp (worded_cons.mp hts).2).1

/-- Names in expressions are tokens. The cases are those of the rules, in their order, and then
those of the arguments of a call. -/
theorem Expression.proper {n : Nat} {ts : List Token} {e : Exp} (h : Expression n ts e)
    (hts : Worded ts) : e.tree.Proper := by
  -- one case for each rule of the grammar, and two for lists of arguments; only rules with a name
  -- in them need the tokens
  refine @Expression.rec (fun _ ts e _ => Worded ts → e.tree.Proper)
    (fun ts args _ => Worded ts → ∀ n ∈ Exp.trees args, n.Proper)
    (fun _ _ ih => ih)
    (fun ht hwrapped _ _ ih hts => ?assign) (fun ht _ _ _ hwrapped _ _ ihi ihe hts =>
      ?assignElement)
    (fun _ _ _ ihl ihr hts => ?binary)
    (fun _ _ ih hts => ?neg) (fun _ _ ih hts => ?not)
    (fun _ _ => Node.proper_nameless rfl nofun) (fun _ _ => Node.proper_nameless rfl nofun)
    (fun _ _ => Node.proper_nameless rfl nofun)
    (fun ht hts => Node.proper_named rfl ((worded_cons.mp hts).1 ht) nofun)
    (fun ht _ _ _ ih hts => ?element)
    (fun ht _ _ hts => Node.proper_named rfl ((worded_cons.mp hts).1 ht) nofun)
    (fun ht _ _ _ ih hts => ?call) (fun _ _ _ ih hts => ?group)
    (fun _ ih hts => List.forall_mem_singleton.mpr (ih hts))
    (fun _ _ _ ih ihrest hts => ?more)
    n ts e h hts
  case assign =>
    obtain ⟨hts, hrest⟩ := worded_append.mp hts
    have hname := (worded_cons.mp (hwrapped.worded hts)).1 ht
    exact Node.proper_nameless rfl (forall_mem_pair (Node.proper_named rfl hname nofun)
      (ih (worded_cons.mp hrest).2))
  case assignElement =>
    obtain ⟨hts, hrest⟩ := worded_append.mp hts
    obtain ⟨hname, hindex⟩ := worded_cons.mp (hwrapped.worded hts)
    have hi := ihi (worded_append.mp (worded_cons.mp hindex).2).1
    exact Node.proper_nameless rfl (forall_mem_pair
      (Node.proper_named rfl (hname ht) (List.forall_mem_singleton.mpr hi))
      (ihe (worded_cons.mp hrest).2))
  case binary =>
    obtain ⟨hl, hr⟩ := worded_append.mp hts
    exact Node.proper_nameless rfl (forall_mem_pair (ihl hl) (ihr (worded_cons.mp hr).2))
  case neg =>
    exact Node.proper_nameless rfl (List.forall_mem_singleton.mpr (ih (worded_cons.mp hts).2))
  case not =>
    exact Node.proper_nameless rfl (List.forall_mem_singleton.mpr (ih (worded_cons.mp hts).2))
  case element =>
    obtain ⟨hname, hindex⟩ := worded_cons.mp hts
    have hi := ih (worded_append.mp (worded_cons.mp hindex).2).1
    exact Node.proper_named rfl (hname ht) (List.forall_mem_singleton.mpr hi)
  case call =>
    obtain ⟨hname, hargs⟩ := worded_cons.mp hts
    exact Node.proper_named rfl (hname ht) (ih (worded_append.mp (worded_cons.mp hargs).2).1)
  case group => exact ih (worded_append.mp (worded_cons.mp hts).2).1
  case more =>
    obtain ⟨hfirst, hrest⟩ := worded_append.mp hts
    exact List.forall_mem_cons.mpr ⟨ih hfirst, ihrest (worded_cons.mp hrest).2⟩

/-- The name of a variable is a token of its declaration. -/
theorem Variable.proper {ts : List Token} {d : VarDecl} (h : Variable ts d) (hts : Worded ts) :
    d.tree.Proper := by
  cases h with
  | scalar _ hname _ =>
    exact Node.proper_named rfl ((worded_cons.mp (worded_cons.mp hts).2).1 hname) nofun
  | array _ hname _ _ _ _ =>
    exact Node.proper_named rfl ((worded_cons.mp (worded_cons.mp hts).2).1 hname) nofun

/-- The name of a parameter is a token of its declaration. -/
theorem Parameter.proper {ts : List Token} {d : VarDecl} (h : Parameter ts d) (hts : Worded ts) :
    d.tree.Proper := by
  cases h with
  | scalar _ hname =>
    exact Node.proper_named rfl ((worded_cons.mp (worded_cons.mp hts).2).1 hname) nofun
  | reference _ hname _ _ =>
    exact Node.proper_named rfl ((worded_cons.mp (worded_cons.mp hts).2).1 hname) nofun

/-- Names in a list of phrases, if the names in each phrase are words. -/
theorem Many.proper {α : Type} {P : List Token → α → Prop} {f : α → Node}
    (hP : ∀ ts a, P ts a → Worded ts → (f a).Proper) {ts : List Token} {as : List α}
    (h : Many P ts as) (hts : Worded ts) : ∀ n ∈ as.map f, n.Proper := by
  induction h with
  | nil => exact nofun
  | cons h _ ih =>
    obtain ⟨hfirst, hrest⟩ := worded_append.mp hts
    exact List.forall_mem_cons.mpr ⟨hP _ _ h hfirst, ih hrest⟩

/-- Names in a list of parameters. -/
theorem Separated.proper {ts : List Token} {params : List VarDecl}
    (h : Separated Parameter ts params) (hts : Worded ts) :
    ∀ n ∈ params.map VarDecl.tree, n.Proper := by
  induction h with
  | one h => exact List.forall_mem_singleton.mpr (h.proper hts)
  | more h _ _ ih =>
    obtain ⟨hfirst, hrest⟩ := worded_append.mp hts
    exact List.forall_mem_cons.mpr ⟨h.proper hfirst, ih (worded_cons.mp hrest).2⟩

/-- What stands between and behind the parentheses of a test. -/
theorem worded_test {word l r : Token} {ts us : List Token}
    (h : Worded (word :: l :: (ts ++ r :: us))) : Worded ts ∧ Worded us := by
  obtain ⟨hts, hus⟩ := worded_append.mp (worded_cons.mp (worded_cons.mp h).2).2
  exact ⟨hts, (worded_cons.mp hus).2⟩

/-- Names in statements are tokens. The cases are those of the rules, in their order, and then those
of the statements in a block. -/
theorem Statement.proper {ts : List Token} {a : Stmt} (h : Statement ts a) (hts : Worded ts) :
    a.tree.Proper := by
  -- the rules of statements and of their lists are mutual, so both motives are given
  refine @Statement.rec (fun ts a _ => Worded ts → a.tree.Proper)
    (fun ts body _ => Worded ts → ∀ n ∈ Stmt.trees body, n.Proper)
    (fun _ hds _ _ ih hts => ?block) (fun _ _ htest _ _ ih hts => ?ifThen)
    (fun _ _ htest _ _ _ _ _ iha ihb hts => ?ifElse) (fun _ _ htest _ _ ih hts => ?whileDo)
    (fun _ _ _ => Node.proper_nameless rfl nofun) (fun _ he _ hts => ?ret)
    (fun _ _ => Node.proper_nameless rfl nofun) (fun he _ hts => ?exp)
    (fun _ => nofun) (fun _ _ ih ihrest hts => ?cons)
    ts a h hts
  case block =>
    obtain ⟨hinner, -⟩ := worded_append.mp (worded_cons.mp hts).2
    obtain ⟨hvars, hbody⟩ := worded_append.mp hinner
    exact Node.proper_nameless rfl (List.forall_mem_append.mpr
      ⟨hds.proper (fun _ _ h => h.proper) hvars, ih hbody⟩)
  case ifThen =>
    obtain ⟨ht, ha⟩ := worded_test hts
    exact Node.proper_nameless rfl (forall_mem_pair (htest.proper ht) (ih ha))
  -- the two branches share the text behind the test, with `else` between them
  case ifElse =>
    obtain ⟨ht, hbranches⟩ := worded_test hts
    obtain ⟨ha, hb⟩ := worded_append.mp hbranches
    have hother := ihb (worded_cons.mp hb).2
    exact Node.proper_nameless rfl (List.forall_mem_cons.mpr ⟨htest.proper ht,
      forall_mem_pair (iha ha) (Node.proper_nameless rfl (List.forall_mem_singleton.mpr hother))⟩)
  case whileDo =>
    obtain ⟨ht, hb⟩ := worded_test hts
    exact Node.proper_nameless rfl (forall_mem_pair (htest.proper ht) (ih hb))
  case ret =>
    have hvalue := he.proper (worded_append.mp (worded_cons.mp hts).2).1
    exact Node.proper_nameless rfl (List.forall_mem_singleton.mpr hvalue)
  case exp => exact he.proper (worded_append.mp hts).1
  case cons =>
    obtain ⟨hfirst, hrest⟩ := worded_append.mp hts
    exact List.forall_mem_cons.mpr ⟨ih hfirst, ihrest hrest⟩

/-- Names in the statements of a block. -/
theorem Many.proper_trees {ts : List Token} {body : List Stmt} (h : Many Statement ts body)
    (hts : Worded ts) : ∀ n ∈ Stmt.trees body, n.Proper := by
  induction h with
  | nil => exact nofun
  | cons h _ ih =>
    obtain ⟨hfirst, hrest⟩ := worded_append.mp hts
    exact List.forall_mem_cons.mpr ⟨h.proper hfirst, ih hrest⟩

/-- The line above the parameters has no name. -/
theorem proper_paramsTree {f : FunDecl} (h : ∀ n ∈ f.params.map VarDecl.tree, n.Proper) :
    f.paramsTree.Proper := by
  unfold FunDecl.paramsTree
  split
  · exact Node.proper_nameless rfl nofun
  · exact Node.proper_nameless rfl h

/-- Names in the parameters of a function, of which there may be none. -/
theorem Parameters.proper {ts : List Token} {params : List VarDecl} (h : Parameters ts params)
    (hts : Worded ts) : ∀ n ∈ params.map VarDecl.tree, n.Proper := by
  cases h with
  | none => exact nofun
  | void => exact nofun
  | some h => exact h.proper hts

/-- Names in declarations are tokens. -/
theorem Declaration.proper {ts : List Token} {d : Decl} (h : Declaration ts d) (hts : Worded ts) :
    d.tree.Proper := by
  cases h with
  | var h => exact h.proper hts
  | prototype _ hname _ hparams _ _ =>
    obtain ⟨hword, hrest⟩ := worded_cons.mp (worded_cons.mp hts).2
    have hps := hparams.proper (worded_append.mp (worded_cons.mp hrest).2).1
    exact Node.proper_named rfl (hword hname) (forall_mem_pair (proper_paramsTree hps)
      (Node.proper_nameless rfl nofun))
  | definition _ hname _ hparams _ _ hds hbody _ =>
    obtain ⟨hword, hrest⟩ := worded_cons.mp (worded_cons.mp hts).2
    obtain ⟨hps, hblock⟩ := worded_append.mp (worded_cons.mp hrest).2
    obtain ⟨hinner, -⟩ := worded_append.mp (worded_cons.mp (worded_cons.mp hblock).2).2
    obtain ⟨hvars, hstmts⟩ := worded_append.mp hinner
    have hdecls := hds.proper (fun _ _ h => h.proper) hvars
    exact Node.proper_named rfl (hword hname) (forall_mem_pair
      (proper_paramsTree (hparams.proper hps)) (Node.proper_nameless rfl
        (List.forall_mem_append.mpr ⟨hdecls, hbody.proper_trees hstmts⟩)))

end Grammar

/-- An identifier is a word. -/
theorem isWord_of_reads {k : Token.Kind} {text : String} {u rest : List Char}
    (h : Token.Reads k text u rest) (hk : k = .identifier) : Label.IsWord text := by
  cases h with
  | lexeme hu htext =>
    obtain rfl : text = String.ofList u := octets_injective (htext.trans hu.octets_text.symm)
    rw [Label.IsWord, String.toList_ofList]
    refine ⟨hu.ne_nil, fun c hc => ?_⟩
    have hgraphic := (hu.graphic c hc).1
    constructor
    · rintro rfl
      exact absurd hgraphic (by decide)
    · rintro rfl
      exact absurd hgraphic (by decide)
  | stray => cases hk
  | unterminated => cases hk

/-- The names among the tokens of a source are words. -/
theorem worded_scan (source : String) : Grammar.Worded (scan source).tokens := by
  intro t ht hkind
  obtain ⟨⟨spans, htiling⟩, -⟩ := scan_tiling source
  obtain ⟨hlength, hstands⟩ := List.forall₂_iff_get.mp htiling.stands
  obtain ⟨i, hi, rfl⟩ := List.mem_iff_getElem.mp ht
  exact isWord_of_reads (hstands i hi (hlength ▸ hi)).reads hkind

/-- The names in a parsed program are words. -/
theorem Program.proper_of_parse {source : String} {p : Program} (h : parse source = .ok p) :
    p.tree.Proper := by
  obtain ⟨-, hdecls, -⟩ := derives_of_parse h
  exact Node.proper_nameless rfl (hdecls.proper (fun _ _ h => h.proper) (worded_scan source))

/-- A parsed program is put together again from its tree. -/
theorem Program.phrase?_of_parse {source : String} {p : Program} (h : parse source = .ok p) :
    p.tree.phrase? = some (.program p.unplaced.decls) := by
  obtain ⟨-, hdecls, -⟩ := derives_of_parse h
  obtain ⟨ps, htrees, hps⟩ := hdecls.phrases?_trees
  rw [Program.tree, Node.phrase?, htrees]
  exact congrArg (fun ds => some (Phrase.program ds)) hps

/-- Reads a program from the text of its outline. -/
def Program.readOutline (text : String) : Option Program := do
  let ls ← Line.readText? text.toList
  match (Node.forest ls).map Prod.snd with
  | [n] =>
    match n.phrase? with
    | some (.program ds) => some ⟨ds, 0⟩
    | _ => none
  | _ => none

/-- The outline of a parsed program is read back into it, up to positions: its lines are those of
the tree, and these are put together again. -/
theorem Program.readOutline_of_parse {source : String} {p : Program} (h : parse source = .ok p) :
    Program.readOutline p.outlineText = some p.unplaced := by
  have hproper := Program.proper_of_parse h
  have hforest : Node.forest (p.tree.lines 0) = [(0, p.tree)] := by
    have hlines : Node.forest (p.tree.lines 0 ++ []) = (0, p.tree) :: Node.forest [] :=
      Node.forest_lines p.tree 0 nofun
    rwa [List.append_nil] at hlines
  obtain ⟨-, -, hend⟩ := derives_of_parse h
  rw [Program.readOutline, Program.toList_outlineText, Line.readText?_flatMap (hproper 0)]
  simp only [Option.bind_eq_bind, Option.bind_some, hforest, List.map_cons, List.map_nil,
    Program.phrase?_of_parse h]
  obtain ⟨ds, globalsEnd⟩ := p
  obtain rfl : globalsEnd = 0 := hend
  rfl

/-- The outline of a parsed program tells all of the program but the positions: it can be read back,
and no other parsed program has the same outline, positions apart. -/
theorem outline_determines_program {source : String} {p : Program} (h : parse source = .ok p) :
    Program.readOutline p.outlineText = some p.unplaced ∧
      ∀ source' p', parse source' = .ok p' → p'.outlineText = p.outlineText →
        p'.unplaced = p.unplaced := by
  have hread := Program.readOutline_of_parse h
  refine ⟨hread, fun source' p' h' heq => ?_⟩
  have hread' := Program.readOutline_of_parse h'
  rw [heq, hread] at hread'
  exact (Option.some.inj hread').symm

/-- A prototype, a dangling branch, an array element, and differences in a row as an argument. -/
def branchingSource : String :=
  "int a[3];int f(int b[]);void main(void)\x7bif(x)if(y)return;else a[1]=f(1-2-3);\x7d"

/-- The same program in another layout. -/
def spreadSource : String :=
  "int a[3];\nint f(int b[]);\nvoid main(void) \x7b\n  if (x)\n    if (y) return;\n" ++
    "    else a[1] = f(1 - 2 - 3);\n\x7d\n"

/-- The outline of both. -/
def branchingOutline : String :=
  "Program:\n" ++
  "    VarDec: a : int[3]\n" ++
  "    FunctionDec: f : int\n" ++
  "        Parameters:\n" ++
  "            VarDec: b : int[]\n" ++
  "        Prototype\n" ++
  "    FunctionDec: main : void\n" ++
  "        Parameters: void\n" ++
  "        Compound:\n" ++
  "            If:\n" ++
  "                Var: x\n" ++
  "                If:\n" ++
  "                    Var: y\n" ++
  "                    Return:\n" ++
  "                    Else:\n" ++
  "                        Assign:\n" ++
  "                            Var: a\n" ++
  "                                Int: 1\n" ++
  "                            Call: f\n" ++
  "                                Op: -\n" ++
  "                                    Op: -\n" ++
  "                                        Int: 1\n" ++
  "                                        Int: 2\n" ++
  "                                    Int: 3\n"

/-- The outline of a source, and where its variables stand. -/
def outlined? (source : String) : Option (String × List Pos) :=
  (parse source).toOption.map fun p => (p.outlineText, p.variables.map VarDecl.pos)

theorem exists_of_outlined? {source text : String} {places : List Pos}
    (h : outlined? source = some (text, places)) :
    ∃ p, parse source = .ok p ∧ p.outlineText = text ∧ p.variables.map VarDecl.pos = places := by
  unfold outlined? at h
  cases hparse : parse source with
  | error e =>
    rw [hparse] at h
    cases h
  | ok p =>
    rw [hparse] at h
    cases h
    exact ⟨p, rfl, rfl, rfl⟩

theorem outline_determines_branching : ∃ p p', parse branchingSource = .ok p ∧
    parse spreadSource = .ok p' ∧ p.outlineText = branchingOutline ∧
      p'.outlineText = branchingOutline ∧
      p.variables.map VarDecl.pos ≠ p'.variables.map VarDecl.pos ∧
        Program.readOutline branchingOutline = some p.unplaced ∧ p'.unplaced = p.unplaced := by
  have hdense : outlined? branchingSource = some (branchingOutline, [⟨0, 0⟩, ⟨0, 15⟩]) := by
    have hascii : Ascii branchingSource _ := ⟨rfl, rfl⟩
    rw [outlined?, parse, hascii.scan_eq]
    decide +kernel
  have hspread : outlined? spreadSource = some (branchingOutline, [⟨0, 0⟩, ⟨1, 6⟩]) := by
    have hascii : Ascii spreadSource _ := .append ⟨rfl, rfl⟩ ⟨rfl, rfl⟩
    rw [outlined?, parse, hascii.scan_eq]
    decide +kernel
  obtain ⟨p, h, htext, hplaces⟩ := exists_of_outlined? hdense
  obtain ⟨p', h', htext', hplaces'⟩ := exists_of_outlined? hspread
  obtain ⟨hread, huniq⟩ := outline_determines_program h
  have hne : p.variables.map VarDecl.pos ≠ p'.variables.map VarDecl.pos := by
    rw [hplaces, hplaces']
    decide
  exact ⟨p, p', h, h', htext, htext', hne, htext ▸ hread, huniq _ p' h' (htext'.trans htext.symm)⟩

end MiniC
