import MiniC.Proofs.Fields
import MiniC.Proofs.Files
import MiniC.Syntax.Outline

/-!
# Lines of an outline

An outline is a tree that is written with one line for each node. The blanks in front of a line tell
its depth, and the words on it its label; the nodes below a node are the deeper ones that follow it.
So the text can be read back, whatever the tree.

* `Label`: what a line says
* `Label.ofWords?_words`: the label from the words
* `Line.readText?_flatMap`: the lines from the text
* `Node`: trees of labels, with their lines
* `Node.forest_lines`: the trees from the lines
-/

namespace MiniC

/-- What holds of two things holds of each member of the list of the two. -/
theorem forall_mem_pair {α : Type} {p : α → Prop} {a b : α} (ha : p a) (hb : p b) :
    ∀ c ∈ [a, b], p c :=
  List.forall_mem_cons.mpr ⟨ha, List.forall_mem_singleton.mpr hb⟩

/-! ### Labels

A label is what one line says of its node, without the nodes below it. Its words are the formats of
the outline, in one place. -/

/-- What a line of an outline says. -/
inductive Label where
  | program
  | varDecl (name : String) (base : BaseType) (shape : Shape)
  | funDecl (name : String) (result : BaseType)
  | parameters
  | noParameters
  | prototype
  | block
  | ifThen
  | otherwise
  | whileDo
  | ret
  | int (value : Nat)
  | bool (value : Bool)
  | nil
  | unary (op : UnaryOp)
  | binary (op : BinaryOp)
  | use (name : String)
  | assign
  | call (callee : String)
deriving DecidableEq

/-- The type of a variable as an outline shows it. -/
def typeText (base : BaseType) : Shape → String
  | .scalar => base.text
  | .array size => s!"{base.text}[{size}]"
  | .reference => base.text ++ "[]"

namespace Label

/-- The words of a line. -/
def words : Label → List String
  | program => ["Program:"]
  | .varDecl name base shape => ["VarDec:", name, ":", typeText base shape]
  | funDecl name result => ["FunctionDec:", name, ":", result.text]
  | parameters => ["Parameters:"]
  | noParameters => ["Parameters:", "void"]
  | prototype => ["Prototype"]
  | block => ["Compound:"]
  | ifThen => ["If:"]
  | otherwise => ["Else:"]
  | whileDo => ["While:"]
  | ret => ["Return:"]
  | int value => ["Int:", toString value]
  | bool true => ["Bool:", "true"]
  | bool false => ["Bool:", "false"]
  | nil => ["Nil"]
  | unary op => ["Unary:", op.symbol]
  | binary op => ["Op:", op.symbol]
  | use name => ["Var:", name]
  | assign => ["Assign:"]
  | call callee => ["Call:", callee]

def text (l : Label) : String :=
  " ".intercalate l.words

/-! ### Reading labels

Each field of a label is read by searching among its few possible texts, except for names, which are
taken as they are, and numbers, which are read as decimals. The reader is total and says `none` for
any other text. -/

def readBase? (text : List Char) : Option BaseType :=
  [.int, .bool, .void].find? fun base => base.text.toList == text

/-- Reads what stands behind the base type of a variable: an array has brackets there. -/
def readShape? : List Char → Option Shape
  | [] => some .scalar
  | _ :: text =>
    if text = [']'] then some .reference
    else (Decimal.takeNat text).map fun (size, _) => .array size

/-- Reads the type of a variable. -/
def readType? (text : List Char) : Option (BaseType × Shape) := do
  let base ← readBase? (text.takeWhile (· ≠ '['))
  return (base, ← readShape? (text.dropWhile (· ≠ '[')))

def readUnary? (text : String) : Option UnaryOp :=
  [.neg, .not].find? fun op => op.symbol == text

def readBinary? (text : String) : Option BinaryOp :=
  [.add, .sub, .mul, .div, .less, .greater, .lessEqual, .greaterEqual, .equal, .notEqual, .and,
    .or].find? fun op => op.symbol == text

/-- The label with these words. -/
def ofWords? : List String → Option Label
  | ["Program:"] => some program
  | ["VarDec:", name, _, type] =>
    (readType? type.toList).map fun (base, shape) => .varDecl name base shape
  | ["FunctionDec:", name, _, type] => (readBase? type.toList).map (funDecl name)
  | ["Parameters:"] => some parameters
  | ["Parameters:", _] => some noParameters
  | ["Prototype"] => some prototype
  | ["Compound:"] => some block
  | ["If:"] => some ifThen
  | ["Else:"] => some otherwise
  | ["While:"] => some whileDo
  | ["Return:"] => some ret
  | ["Int:", value] => (Decimal.readNat? value.toList).map int
  | ["Bool:", value] => some (bool (value == "true"))
  | ["Nil"] => some nil
  | ["Unary:", op] => (readUnary? op).map unary
  | ["Op:", op] => (readBinary? op).map binary
  | ["Var:", name] => some (use name)
  | ["Assign:"] => some assign
  | ["Call:", callee] => some (call callee)
  | _ => none

/-- A base type is read from its text. -/
theorem readBase?_text (base : BaseType) : readBase? base.text.toList = some base := by
  cases base <;> decide

/-- No base type has a bracket in its text, so the first bracket ends it. -/
theorem bracket_notMem_base (base : BaseType) : '[' ∉ base.text.toList := by
  cases base <;> decide

/-- The size of an array is read from between its brackets. -/
theorem readShape?_size (size : Nat) :
    readShape? (['['] ++ ((toString size).toList ++ [']'])) = some (.array size) := by
  -- a size has a digit
  have hne : (toString size).toList ++ [']'] ≠ [']'] := by
    simp
  rw [List.singleton_append, readShape?, if_neg hne, Decimal.takeNat_append (by simp)]
  rfl

/-- The type of a variable is read from its text. -/
theorem readType?_typeText (base : BaseType) (shape : Shape) :
    readType? (typeText base shape).toList = some (base, shape) := by
  cases shape with
  | scalar => cases base <;> decide
  | reference => cases base <;> decide
  | array size =>
    have hbase := bracket_notMem_base base
    have htext : (typeText base (.array size)).toList =
        base.text.toList ++ (['['] ++ ((toString size).toList ++ [']'])) := by
      simp only [typeText, String.toList_append, List.append_assoc]
      rfl
    rw [htext, readType?, takeWhile_ne_append hbase, dropWhile_ne_append hbase, readBase?_text,
      readShape?_size]
    rfl

/-- A unary operator is read from its symbol. -/
theorem readUnary?_symbol (op : UnaryOp) : readUnary? op.symbol = some op := by
  cases op <;> decide

/-- A binary operator is read from its symbol. -/
theorem readBinary?_symbol (op : BinaryOp) : readBinary? op.symbol = some op := by
  cases op <;> decide

/-- A label is read from its words. -/
theorem ofWords?_words (l : Label) : ofWords? l.words = some l := by
  cases l with
  | varDecl name base shape =>
    show (readType? (typeText base shape).toList).map _ = _
    rw [readType?_typeText]
    rfl
  | funDecl name result =>
    show (readBase? result.text.toList).map _ = _
    rw [readBase?_text]
    rfl
  | int value =>
    show (Decimal.readNat? (toString value).toList).map _ = _
    rw [Decimal.readNat?_toString]
    rfl
  | bool value => cases value <;> rfl
  | unary op =>
    show (readUnary? op.symbol).map _ = _
    rw [readUnary?_symbol]
    rfl
  | binary op =>
    show (readBinary? op.symbol).map _ = _
    rw [readBinary?_symbol]
    rfl
  | _ => rfl

/-- Every line has words, since none is read from no words. -/
theorem words_ne_nil (l : Label) : l.words ≠ [] := by
  intro h
  have hread := ofWords?_words l
  rw [h] at hread
  cases hread

/-! ### Words

A line can be split at its blanks only if no word has a blank in it or is empty. For names this is a
condition, which those of a parsed program meet. -/

/-- A text that can stand between blanks. -/
def IsWord (w : String) : Prop :=
  w.toList ≠ [] ∧ ∀ c ∈ w.toList, c ≠ ' ' ∧ c ≠ '\n'

-- of the characters of `w`, and not of all characters, of which there are finitely many too
instance (w : String) : Decidable (IsWord w) :=
  @instDecidableAnd _ _ _ (List.decidableBAll _ w.toList)

/-- No word has a blank in it. -/
theorem IsWord.blank_notMem {w : String} (h : IsWord w) : ' ' ∉ w.toList :=
  fun hmem => (h.2 _ hmem).1 rfl

/-- No word has a line feed in it. -/
theorem IsWord.break_notMem {w : String} (h : IsWord w) : '\n' ∉ w.toList :=
  fun hmem => (h.2 _ hmem).2 rfl

/-- Two words without a blank between them are a word. -/
theorem IsWord.append {a b : String} (ha : IsWord a) (hb : IsWord b) : IsWord (a ++ b) := by
  unfold IsWord
  rw [String.toList_append]
  exact ⟨List.append_ne_nil_of_left_ne_nil ha.1 _, List.forall_mem_append.mpr ⟨ha.2, hb.2⟩⟩

/-- Numbers are words. -/
theorem isWord_toString (n : Nat) : IsWord (toString n) := by
  refine ⟨Decimal.toString_toList_ne_nil n, fun c hc => ?_⟩
  have hdigit := Decimal.isDigit_of_mem_toString hc
  constructor
  · rintro rfl
    exact absurd hdigit (by decide)
  · rintro rfl
    exact absurd hdigit (by decide)

/-- Base types are words. -/
theorem isWord_base (base : BaseType) : IsWord base.text := by
  cases base <;> decide

/-- The type of a variable is one word, with its brackets. -/
theorem isWord_typeText (base : BaseType) (shape : Shape) : IsWord (typeText base shape) := by
  have hopen : IsWord "[" := by decide
  have hclose : IsWord "]" := by decide
  have hpair : IsWord "[]" := by decide
  cases shape with
  | scalar => exact isWord_base base
  | reference => exact (isWord_base base).append hpair
  | array size =>
    exact (((isWord_base base).append hopen).append (isWord_toString size)).append hclose

/-- The name on a line. -/
def name? : Label → Option String
  | .varDecl name _ _ => some name
  | .funDecl name _ => some name
  | use name => some name
  | call callee => some callee
  | _ => none

/-- The name on the line, if there is one, is a word. -/
def Proper (l : Label) : Prop :=
  ∀ name ∈ l.name?, IsWord name

/-- All words of a proper label are words: those that are not names are fixed, numbers or types. -/
theorem Proper.isWord {l : Label} (h : l.Proper) : ∀ w ∈ l.words, IsWord w := by
  cases l with
  | varDecl name base shape =>
    exact List.forall_mem_cons.mpr ⟨by decide, List.forall_mem_cons.mpr
      ⟨h name rfl, forall_mem_pair (by decide) (isWord_typeText base shape)⟩⟩
  | funDecl name result =>
    exact List.forall_mem_cons.mpr ⟨by decide, List.forall_mem_cons.mpr
      ⟨h name rfl, forall_mem_pair (by decide) (isWord_base result)⟩⟩
  | int value => exact forall_mem_pair (by decide) (isWord_toString value)
  | use name => exact forall_mem_pair (by decide) (h name rfl)
  | call callee => exact forall_mem_pair (by decide) (h callee rfl)
  | bool value => cases value <;> decide
  | unary op => cases op <;> decide
  | binary op => cases op <;> decide
  | _ => decide

/-- Words with blanks between them are split at the blanks. By induction on the words. -/
theorem split_intercalate {w : String} {ws : List String} (h : ∀ v ∈ w :: ws, ' ' ∉ v.toList) :
    Text.split ' ' (" ".intercalate (w :: ws)).toList = (w :: ws).map String.toList := by
  induction ws generalizing w with
  | nil =>
    rw [String.intercalate_singleton, Text.split_of_notMem (h w List.mem_cons_self)]
    rfl
  | cons v ws ih =>
    obtain ⟨hw, hrest⟩ := List.forall_mem_cons.mp h
    rw [String.intercalate_cons_cons, String.toList_append, String.toList_append, List.append_assoc]
    rw [show " ".toList = [' '] from rfl, List.singleton_append, Text.split_append, ih hrest,
      Text.split_of_notMem hw]
    rfl

/-- A line of words has no line feed in it. -/
theorem break_notMem_intercalate {ws : List String} (h : ∀ w ∈ ws, '\n' ∉ w.toList) :
    '\n' ∉ (" ".intercalate ws).toList := by
  induction ws with
  | nil => exact List.not_mem_nil
  | cons w ws ih =>
    obtain ⟨hw, hws⟩ := List.forall_mem_cons.mp h
    cases ws with
    | nil => rwa [String.intercalate_singleton]
    | cons v ws =>
      rw [String.intercalate_cons_cons, String.toList_append, String.toList_append, List.mem_append,
        List.mem_append, not_or, not_or]
      exact ⟨⟨hw, by decide⟩, ih hws⟩

end Label

/-! ### Lines

A line ends with a line feed and starts with four blanks for each level of its depth. -/

/-- A line: its depth and its label. -/
abbrev Line := Nat × Label

namespace Line

def text (l : Line) : List Char :=
  List.replicate (4 * l.1) ' ' ++ l.2.text.toList

/-- Reads a line. -/
def read? (text : List Char) : Option Line :=
  let words := (Text.split ' ' (text.dropWhile (· = ' '))).map String.ofList
  (Label.ofWords? words).map fun label => ((text.takeWhile (· = ' ')).length / 4, label)

/-- The text of a proper label begins with a character that is no blank. -/
theorem exists_text_cons {l : Label} (h : l.Proper) :
    ∃ c cs, l.text.toList = c :: cs ∧ c ≠ ' ' := by
  obtain ⟨w, ws, hws⟩ := List.exists_cons_of_ne_nil l.words_ne_nil
  obtain ⟨hne, hchars⟩ := h.isWord w (hws ▸ List.mem_cons_self)
  obtain ⟨c, cs, hcs⟩ := List.exists_cons_of_ne_nil hne
  have hc := (hchars c (hcs ▸ List.mem_cons_self)).1
  rw [Label.text, hws]
  cases ws with
  | nil => exact ⟨c, cs, by rw [String.intercalate_singleton, hcs], hc⟩
  | cons v ws =>
    refine ⟨c, cs ++ (" ".toList ++ (" ".intercalate (v :: ws)).toList), ?_, hc⟩
    rw [String.intercalate_cons_cons, String.toList_append, String.toList_append, List.append_assoc,
      hcs, List.cons_append]

/-- A line is read from its text. -/
theorem read?_text {l : Line} (h : l.2.Proper) : read? l.text = some l := by
  obtain ⟨c, cs, hcs, hc⟩ := exists_text_cons h
  have hblanks : ∀ b ∈ List.replicate (4 * l.1) ' ', decide (b = ' ') = true := fun b hb => by
    simpa using List.eq_of_mem_replicate hb
  have htake : l.text.takeWhile (· = ' ') = List.replicate (4 * l.1) ' ' := by
    rw [text, List.takeWhile_append_of_pos hblanks, hcs,
      List.takeWhile_cons_of_neg (by simpa using hc), List.append_nil]
  have hdrop : l.text.dropWhile (· = ' ') = l.2.text.toList := by
    rw [text, List.dropWhile_append_of_pos hblanks, hcs,
      List.dropWhile_cons_of_neg (by simpa using hc)]
  have hwords : (Text.split ' ' l.2.text.toList).map String.ofList = l.2.words := by
    obtain ⟨w, ws, hws⟩ := List.exists_cons_of_ne_nil l.2.words_ne_nil
    rw [Label.text, hws, Label.split_intercalate (hws ▸ fun v hv => (h.isWord v hv).blank_notMem),
      List.map_map]
    exact (List.map_congr_left fun _ _ => String.ofList_toList).trans (List.map_id _)
  have hdepth : (List.replicate (4 * l.1) ' ').length / 4 = l.1 := by
    rw [List.length_replicate]
    omega
  simp only [read?, hdrop, htake, hwords, Label.ofWords?_words, Option.map_some, hdepth]

/-- The text of a line has no line feed in it, its indentation included. -/
theorem break_notMem_text {l : Line} (h : l.2.Proper) : '\n' ∉ l.text := by
  intro hmem
  rcases List.mem_append.mp hmem with hmem | hmem
  · exact absurd (List.eq_of_mem_replicate hmem) (by decide)
  · exact Label.break_notMem_intercalate (fun w hw => (h.isWord w hw).break_notMem) hmem

/-- Reads lines. -/
def readAll? : List (List Char) → Option (List Line)
  | [] => some []
  | text :: rest => do return (← read? text) :: (← readAll? rest)

/-- Reads a text of lines that are ended by line feeds. -/
def readText? (text : List Char) : Option (List Line) :=
  readAll? (Text.split '\n' text).dropLast

/-- Lines that end with line feeds are split at the line feeds, with nothing behind the last. -/
theorem split_flatMap {ls : List Line} (h : ∀ l ∈ ls, l.2.Proper) :
    Text.split '\n' (ls.flatMap fun l => l.text ++ ['\n']) = ls.map text ++ [[]] := by
  induction ls with
  | nil => rfl
  | cons l ls ih =>
    obtain ⟨hl, hls⟩ := List.forall_mem_cons.mp h
    rw [List.flatMap_cons, List.append_assoc, List.singleton_append, Text.split_append, ih hls,
      Text.split_of_notMem (break_notMem_text hl)]
    rfl

/-- The lines of a text are read one by one. -/
theorem readAll?_text {ls : List Line} (h : ∀ l ∈ ls, l.2.Proper) :
    readAll? (ls.map text) = some ls := by
  induction ls with
  | nil => rfl
  | cons l ls ih =>
    obtain ⟨hl, hls⟩ := List.forall_mem_cons.mp h
    rw [List.map_cons, readAll?, read?_text hl, ih hls]
    rfl

/-- Lines are read from their text. -/
theorem readText?_flatMap {ls : List Line} (h : ∀ l ∈ ls, l.2.Proper) :
    readText? (ls.flatMap fun l => l.text ++ ['\n']) = some ls := by
  rw [readText?, split_flatMap h, List.dropLast_concat, readAll?_text h]

end Line

/-! ### Trees

The lines of a tree give back the tree by their depths alone. The reader goes through them from the
end and collects under each line the deeper trees that follow it. -/

/-- A tree of labels. -/
inductive Node where
  | mk (label : Label) (children : List Node)

namespace Node

mutual

/-- The lines of a tree whose root has this depth. -/
def lines (depth : Nat) : Node → List Line
  | mk label children => (depth, label) :: linesAll (depth + 1) children

def linesAll (depth : Nat) : List Node → List Line
  | [] => []
  | n :: rest => n.lines depth ++ linesAll depth rest

end

/-- Reads trees from lines, each with the depth of its root: below a root are the deeper ones that
follow. -/
def forest : List Line → List (Nat × Node)
  | [] => []
  | (depth, label) :: rest =>
    let below := (forest rest).takeWhile fun n => depth < n.1
    (depth, mk label (below.map Prod.snd)) :: (forest rest).dropWhile fun n => depth < n.1

/-- A property of every tree follows from its being handed on from the children to their parent. -/
theorem induction {motive : Node → Prop}
    (mk : ∀ label children, (∀ n ∈ children, motive n) → motive (mk label children)) (n : Node) :
    motive n :=
  @Node.rec motive (fun children => ∀ n ∈ children, motive n) mk
    (fun _ h => absurd h List.not_mem_nil)
    (fun _ _ hhead htail n hn => by
      rcases List.mem_cons.mp hn with rfl | hn
      · exact hhead
      · exact htail n hn) n

/-- Trees whose roots are not deeper than a depth come next. -/
def Above (depth : Nat) (rest : List Line) : Prop :=
  ∀ n ∈ (forest rest).head?, n.1 ≤ depth

/-- Trees at one depth are read one after the other, if each of them is read from its lines. By
induction on them: the next tree ends the one before it, because it is not deeper. -/
theorem forest_linesAll_of_forall {children : List Node} {depth : Nat}
    (ih : ∀ n ∈ children, ∀ rest, Above depth rest →
      forest (n.lines depth ++ rest) = (depth, n) :: forest rest) {rest : List Line}
    (hrest : Above depth rest) :
    forest (linesAll depth children ++ rest) = children.map (depth, ·) ++ forest rest := by
  induction children with
  | nil => rfl
  | cons n children ih' =>
    obtain ⟨hn, hchildren⟩ := List.forall_mem_cons.mp ih
    have hnext := ih' hchildren
    have habove : Above depth (linesAll depth children ++ rest) := by
      unfold Above
      rw [hnext]
      cases children with
      | nil => exact hrest
      | cons n' children =>
        rintro _ ⟨⟩
        exact Nat.le_refl depth
    rw [linesAll, List.append_assoc, hn _ habove, hnext, List.map_cons, List.cons_append]

/-- A tree is read from its lines, whatever follows at its depth or above. -/
theorem forest_lines (n : Node) (depth : Nat) {rest : List Line} (hrest : Above depth rest) :
    forest (n.lines depth ++ rest) = (depth, n) :: forest rest := by
  induction n using Node.induction generalizing depth rest with
  | mk label children ih =>
    have hbelow : Above (depth + 1) rest := fun n hn => Nat.le_succ_of_le (hrest n hn)
    have hbranch : ∀ n ∈ children, ∀ rest, Above (depth + 1) rest →
        forest (n.lines (depth + 1) ++ rest) = (depth + 1, n) :: forest rest :=
      fun n hn _ hrest => ih n hn (depth + 1) hrest
    have hchildren := forest_linesAll_of_forall hbranch hbelow
    have hdeep : ∀ n ∈ children.map fun n => (depth + 1, n), decide (depth < n.1) = true := by
      simp
    -- what follows the tree is not below it
    have hstop : (forest rest).takeWhile (fun n => depth < n.1) = [] ∧
        (forest rest).dropWhile (fun n => depth < n.1) = forest rest := by
      unfold Above at hrest
      cases hnext : forest rest with
      | nil => exact ⟨rfl, rfl⟩
      | cons n ns =>
        rw [hnext] at hrest
        have hle : ¬decide (depth < n.1) = true := by simpa using hrest n rfl
        exact ⟨List.takeWhile_cons_of_neg hle, List.dropWhile_cons_of_neg hle⟩
    have hroots : (children.map fun n => (depth + 1, n)).map Prod.snd = children := by
      rw [List.map_map]
      exact List.map_id children
    rw [lines, List.cons_append, forest, hchildren, List.takeWhile_append_of_pos hdeep,
      List.dropWhile_append_of_pos hdeep, hstop.1, hstop.2, List.append_nil, hroots]

end Node

end MiniC
