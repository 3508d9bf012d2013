import MiniC.Syntax
import Std.Data.TreeMap

/-!
# Scopes

The names that can be used at a point of a program. Names live in frames, the innermost first; a
name is looked up from the innermost frame outwards. A frame remembers the order in which its
symbols were declared.
-/

namespace MiniC

/-- A parameter of a function, as its callers see it. -/
structure Param where
  name : String
  ty : Ty
deriving DecidableEq, Repr

/-- What a name stands for. A function is defined once a body for it has been seen. -/
inductive Symbol where
  | var (name : String) (ty : Ty) (layout : Layout)
  | function (name : String) (result : BaseType) (params : List Param) (defined : Bool)
deriving DecidableEq, Repr

namespace Symbol

/-- The name under which a symbol was made. -/
def name : Symbol → String
  | .var name _ _ => name
  | .function name _ _ _ => name

/-- The type of a variable, or the result type of a function. -/
def ty : Symbol → Ty
  | .var _ ty _ => ty
  | .function _ result _ _ => .scalar result

/-- The parameters of a function; a variable has none. -/
def params : Symbol → List Param
  | .var _ _ _ => []
  | .function _ _ params _ => params

/-- The storage of a variable. -/
def layout : Symbol → Option Layout
  | .var _ _ layout => some layout
  | .function _ _ _ _ => none

/-- Whether the symbol is a function. -/
def isFunction : Symbol → Bool
  | .var _ _ _ => false
  | .function _ _ _ _ => true

/-- Variables are always defined, functions once their body is known. -/
def isDefined : Symbol → Bool
  | .var _ _ _ => true
  | .function _ _ _ defined => defined

/-- Two symbols agree for callers if base type and parameter types agree; parameter names do not
matter. -/
def sameSignature (a b : Symbol) : Bool :=
  a.ty.base = b.ty.base && a.params.map Param.ty = b.params.map Param.ty

/-- The text of a parameter. -/
def paramText (p : Param) : String :=
  s!"{p.name} : {p.ty.text}"

/-- The line of a symbol in a scope dump. -/
def text : Symbol → String
  | .var name ty _ => s!"{name} : {ty.text}"
  | .function name result params _ =>
    let shown := ", ".intercalate (params.map paramText)
    s!"Function {name} : {result.text} ({shown})"

end Symbol

/-- A frame: its symbols in the order of their declaration, and the place of each name. -/
structure Frame where
  index : Std.TreeMap String Nat
  symbols : Array Symbol

namespace Frame

/-- A frame without names. -/
def empty : Frame :=
  ⟨∅, #[]⟩

/-- The symbol of a name. -/
def get? (f : Frame) (name : String) : Option Symbol :=
  f.index[name]?.bind fun i => f.symbols[i]?

/-- Adds a name; refused if the frame has it already. -/
def declare? (f : Frame) (name : String) (symbol : Symbol) : Option Frame :=
  if f.index.contains name then none
  else some ⟨f.index.insert name f.symbols.size, f.symbols.push symbol⟩

/-- Replaces the symbol of a name, in its place; refused if the frame does not have it. -/
def redefine? (f : Frame) (name : String) (symbol : Symbol) : Option Frame :=
  f.index[name]?.map fun i => { f with symbols := f.symbols.setIfInBounds i symbol }

end Frame

/-- A stack of frames, the innermost first. -/
structure ScopeTable where
  frames : List Frame

namespace ScopeTable

/-- A table with a single frame and no names. -/
def bare : ScopeTable :=
  ⟨[Frame.empty]⟩

/-- The number of frames. -/
def depth (t : ScopeTable) : Nat :=
  t.frames.length

/-- Opens a frame. -/
def enter (t : ScopeTable) : ScopeTable :=
  ⟨Frame.empty :: t.frames⟩

/-- Closes the innermost frame and gives it back. -/
def exit? (t : ScopeTable) : Option (Frame × ScopeTable) :=
  match t.frames with
  | [] => none
  | f :: outer => some (f, ⟨outer⟩)

/-- Changes the innermost frame; refused if there is none or the change is refused. -/
def updateInner? (t : ScopeTable) (change : Frame → Option Frame) : Option ScopeTable :=
  match t.frames with
  | [] => none
  | f :: outer => (change f).map fun f => ⟨f :: outer⟩

/-- Adds a name to the innermost frame; refused if that frame has it already. -/
def declare? (t : ScopeTable) (name : String) (symbol : Symbol) : Option ScopeTable :=
  t.updateInner? (Frame.declare? · name symbol)

/-- Replaces a name of the innermost frame; refused if that frame does not have it. -/
def redefine? (t : ScopeTable) (name : String) (symbol : Symbol) : Option ScopeTable :=
  t.updateInner? (Frame.redefine? · name symbol)

/-- The symbol of a name in the innermost frame that has it. -/
def lookup (t : ScopeTable) (name : String) : Option Symbol :=
  t.frames.findSome? (Frame.get? · name)

/-- The symbol of a name in the innermost frame alone. -/
def lookupInner (t : ScopeTable) (name : String) : Option Symbol :=
  t.frames.head?.bind (Frame.get? · name)

/-- The symbols of the innermost frame, in the order of their declaration. -/
def symbols (t : ScopeTable) : List Symbol :=
  match t.frames with
  | [] => []
  | f :: _ => f.symbols.toList

/-- Adds a name, or leaves the table as it is if that is refused. -/
def declare (t : ScopeTable) (name : String) (symbol : Symbol) : ScopeTable :=
  (t.declare? name symbol).getD t

/-- The global frame, with the two routines that every program can call. -/
def initial : ScopeTable :=
  bare
    |>.declare "input" (.function "input" .int [] true)
    |>.declare "output" (.function "output" .void [⟨"x", .scalar .int⟩] true)

end ScopeTable

end MiniC
