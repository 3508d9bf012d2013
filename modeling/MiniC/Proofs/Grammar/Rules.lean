import MiniC.Syntax
import MiniC.Text.Decimal
import MiniC.Token

/-!
# The grammar

Which lists of tokens spell a phrase, and which tree they spell. The rules are those of a grammar:
there is no state, no order of reading and no error in them. Expressions are divided into levels by
how tightly their operators bind.

* `Expression`: expressions of a level, from one (assignments) to eight (operands)
* `Statement`: statements, with every `else` at the nearest `if`
* `Declaration`, `Program`: the outermost level
-/

namespace MiniC.Grammar

/-! ### Lists of phrases

Lists that the rules of the grammar share, for any kind of phrase. -/

/-- One or more phrases with commas between them. -/
inductive Separated {α : Type} (P : List Token → α → Prop) : List Token → List α → Prop where
  | one {ts a} (h : P ts a) : Separated P ts [a]
  | more {ts a comma rest as} (h : P ts a) (hcomma : comma.kind = .comma)
      (hrest : Separated P rest as) : Separated P (ts ++ comma :: rest) (a :: as)

/-- Any number of phrases, one after the other. -/
inductive Many {α : Type} (P : List Token → α → Prop) : List Token → List α → Prop where
  | nil : Many P [] []
  | cons {ts a rest as} (h : P ts a) (hrest : Many P rest as) : Many P (ts ++ rest) (a :: as)

/-- A phrase in any number of parentheses. -/
inductive Wrapped (inner : List Token) : List Token → Prop where
  | refl : Wrapped inner inner
  | parens {l ts r} (hl : l.kind = .leftParen) (h : Wrapped inner ts) (hr : r.kind = .rightParen) :
      Wrapped inner (l :: (ts ++ [r]))

/-! ### Words

What a token must be to stand for a number, a type, an operator or a name. A number must fit into a
word. -/

/-- The token is a number that can be written. -/
structure Numeral (t : Token) (n : Nat) : Prop where
  kind : t.kind = .integer
  value : Decimal.readNat? t.text.toList = some n
  bound : n ≤ maxNumeral

/-- The token names a type. -/
def NamesType (t : Token) (base : BaseType) : Prop :=
  (t.kind, base) ∈ [(Token.Kind.kwInt, BaseType.int), (.kwBool, .bool), (.kwVoid, .void)]

/-- The binary operators of a level. -/
def operators : Nat → List (Token.Kind × BinaryOp)
  | 2 => [(.orOr, .or)]
  | 3 => [(.andAnd, .and)]
  | 4 => [(.equalEqual, .equal), (.bangEqual, .notEqual)]
  | 5 => [(.less, .less), (.greater, .greater), (.lessEqual, .lessEqual),
      (.greaterEqual, .greaterEqual)]
  | 6 => [(.plus, .add), (.minus, .sub)]
  | 7 => [(.star, .mul), (.slash, .div)]
  | _ => []

/-- The variable that a token names. -/
def useOf (t : Token) : VarUse :=
  ⟨t.pos, t.text, none⟩

/-! ### Expressions

One relation with a level for each precedence. A binary operator has a left operand of its own level
and a right one of the next, so it associates to the left; assignments, on level 1, associate to the
right. -/

/-- The tokens spell an expression of a level. A binary operator takes a left operand of its own
level and a right operand of the next; what is assigned to is a variable or an element, possibly in
parentheses. -/
inductive Expression : Nat → List Token → Exp → Prop where
  | tighter {n ts e} (hn : n < 8) (h : Expression (n + 1) ts e) : Expression n ts e
  | assign {t ts equal rest e} (ht : t.kind = .identifier) (hts : Wrapped [t] ts)
      (hequal : equal.kind = .equal) (he : Expression 1 rest e) :
      Expression 1 (ts ++ equal :: rest) (.assign equal.pos none (useOf t) e)
  | assignElement {t l index i r ts equal rest e} (ht : t.kind = .identifier)
      (hl : l.kind = .leftBracket) (hi : Expression 1 index i) (hr : r.kind = .rightBracket)
      (hts : Wrapped (t :: l :: (index ++ [r])) ts) (hequal : equal.kind = .equal)
      (he : Expression 1 rest e) :
      Expression 1 (ts ++ equal :: rest) (.assignElement equal.pos none (useOf t) i e)
  | binary {n left l op o right r} (hop : (op.kind, o) ∈ operators n) (hl : Expression n left l)
      (hr : Expression (n + 1) right r) :
      Expression n (left ++ op :: right) (.binary op.pos none o l r)
  | neg {t ts e} (ht : t.kind = .minus) (h : Expression 8 ts e) :
      Expression 8 (t :: ts) (.unary t.pos none .neg e)
  | not {t ts e} (ht : t.kind = .bang) (h : Expression 8 ts e) :
      Expression 8 (t :: ts) (.unary t.pos none .not e)
  | int {t n} (h : Numeral t n) : Expression 8 [t] (.int t.pos n)
  | true {t} (ht : t.kind = .kwTrue) : Expression 8 [t] (.bool t.pos Bool.true)
  | false {t} (ht : t.kind = .kwFalse) : Expression 8 [t] (.bool t.pos Bool.false)
  | var {t} (ht : t.kind = .identifier) : Expression 8 [t] (.var none (useOf t))
  | element {t l index i r} (ht : t.kind = .identifier) (hl : l.kind = .leftBracket)
      (hi : Expression 1 index i) (hr : r.kind = .rightBracket) :
      Expression 8 (t :: l :: (index ++ [r])) (.element none (useOf t) i)
  | callNone {t l r} (ht : t.kind = .identifier) (hl : l.kind = .leftParen)
      (hr : r.kind = .rightParen) : Expression 8 [t, l, r] (.call t.pos none t.text [])
  | call {t l ts args r} (ht : t.kind = .identifier) (hl : l.kind = .leftParen)
      (hargs : Separated (Expression 1) ts args) (hr : r.kind = .rightParen) :
      Expression 8 (t :: l :: (ts ++ [r])) (.call t.pos none t.text args)
  | group {l ts e r} (hl : l.kind = .leftParen) (h : Expression 1 ts e)
      (hr : r.kind = .rightParen) : Expression 8 (l :: (ts ++ [r])) e

/-! ### Statements

The branch in front of an `else` must not end with an `if` that could take it. -/

/-- The tokens declare a variable. -/
inductive Variable : List Token → VarDecl → Prop where
  | scalar {ty base name semi} (hty : NamesType ty base) (hname : name.kind = .identifier)
      (hsemi : semi.kind = .semicolon) :
      Variable [ty, name, semi] ⟨ty.pos, base, name.text, .scalar, none⟩
  | array {ty base name l size n r semi} (hty : NamesType ty base) (hname : name.kind = .identifier)
      (hl : l.kind = .leftBracket) (hsize : Numeral size n) (hr : r.kind = .rightBracket)
      (hsemi : semi.kind = .semicolon) :
      Variable [ty, name, l, size, r, semi] ⟨ty.pos, base, name.text, .array n, none⟩

/-- The statement ends in an `if` that a following `else` would belong to. -/
def Dangling : Stmt → Prop
  | .ifThen _ _ _ => True
  | .ifElse _ _ _ b => Dangling b
  | .whileDo _ _ b => Dangling b
  | _ => False

/-- The tokens spell a statement. A branch in front of an `else` leaves it no nearer `if`. -/
inductive Statement : List Token → Stmt → Prop where
  | block {l dts ds bts body r} (hl : l.kind = .leftBrace) (hds : Many Variable dts ds)
      (hbody : Many Statement bts body) (hr : r.kind = .rightBrace) :
      Statement (l :: (dts ++ bts ++ [r])) (.block l.pos ds body)
  | ifThen {i l ts test r ats a} (hi : i.kind = .kwIf) (hl : l.kind = .leftParen)
      (htest : Expression 1 ts test) (hr : r.kind = .rightParen) (ha : Statement ats a) :
      Statement (i :: l :: (ts ++ r :: ats)) (.ifThen i.pos test a)
  | ifElse {i l ts test r ats a other bts b} (hi : i.kind = .kwIf) (hl : l.kind = .leftParen)
      (htest : Expression 1 ts test) (hr : r.kind = .rightParen) (ha : Statement ats a)
      (hnearest : ¬Dangling a) (hother : other.kind = .kwElse) (hb : Statement bts b) :
      Statement (i :: l :: (ts ++ r :: (ats ++ other :: bts))) (.ifElse i.pos test a b)
  | whileDo {w l ts test r bts b} (hw : w.kind = .kwWhile) (hl : l.kind = .leftParen)
      (htest : Expression 1 ts test) (hr : r.kind = .rightParen) (hb : Statement bts b) :
      Statement (w :: l :: (ts ++ r :: bts)) (.whileDo w.pos test b)
  | bareReturn {t semi} (ht : t.kind = .kwReturn) (hsemi : semi.kind = .semicolon) :
      Statement [t, semi] (.ret t.pos none)
  | valueReturn {t ts e semi} (ht : t.kind = .kwReturn) (he : Expression 1 ts e)
      (hsemi : semi.kind = .semicolon) : Statement (t :: (ts ++ [semi])) (.ret t.pos (some e))
  | empty {semi} (hsemi : semi.kind = .semicolon) :
      Statement [semi] (.exp semi.pos (.nil semi.pos))
  | exp {t ts e semi} (he : Expression 1 (t :: ts) e) (hsemi : semi.kind = .semicolon) :
      Statement (t :: (ts ++ [semi])) (.exp t.pos e)

/-! ### Programs

A program is a list of declarations, which ends where the tokens end. -/

/-- The tokens declare a parameter. -/
inductive Parameter : List Token → VarDecl → Prop where
  | scalar {ty base name} (hty : NamesType ty base) (hname : name.kind = .identifier) :
      Parameter [ty, name] ⟨ty.pos, base, name.text, .scalar, none⟩
  | reference {ty base name l r} (hty : NamesType ty base) (hname : name.kind = .identifier)
      (hl : l.kind = .leftBracket) (hr : r.kind = .rightBracket) :
      Parameter [ty, name, l, r] ⟨ty.pos, base, name.text, .reference, none⟩

/-- The tokens declare the parameters of a function. -/
inductive Parameters : List Token → List VarDecl → Prop where
  | none : Parameters [] []
  | void {t} (ht : t.kind = .kwVoid) : Parameters [t] []
  | some {ts params} (h : Separated Parameter ts params) : Parameters ts params

/-- The tokens declare a variable or a function. -/
inductive Declaration : List Token → Decl → Prop where
  | var {ts d} (h : Variable ts d) : Declaration ts (.var d)
  | prototype {ty base name l ts params r semi} (hty : NamesType ty base)
      (hname : name.kind = .identifier) (hl : l.kind = .leftParen) (hparams : Parameters ts params)
      (hr : r.kind = .rightParen) (hsemi : semi.kind = .semicolon) :
      Declaration (ty :: name :: l :: (ts ++ [r, semi]))
        (.function ⟨ty.pos, base, name.text, params, none, 0, none⟩)
  | definition {ty base name l ts params r brace dts ds bts body stop} (hty : NamesType ty base)
      (hname : name.kind = .identifier) (hl : l.kind = .leftParen) (hparams : Parameters ts params)
      (hr : r.kind = .rightParen) (hbrace : brace.kind = .leftBrace) (hds : Many Variable dts ds)
      (hbody : Many Statement bts body) (hstop : stop.kind = .rightBrace) :
      Declaration (ty :: name :: l :: (ts ++ r :: brace :: (dts ++ bts ++ [stop])))
        (.function ⟨ty.pos, base, name.text, params, some ⟨brace.pos, ds, body⟩, 0, none⟩)

/-- The tokens spell a program. Nothing is recorded in its tree yet. -/
structure Program (ts : List Token) (p : MiniC.Program) : Prop where
  decls : Many Declaration ts p.decls
  globalsEnd : p.globalsEnd = 0

end MiniC.Grammar
