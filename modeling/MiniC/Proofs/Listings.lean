import Mathlib.Data.List.Forall2
import MiniC.Code.Listing
import MiniC.Proofs.Fields

/-!
# What a listing tells

A listing can be read back: the operation, the form, the operands and the remark of every
instruction, the remark up to the white space at its end. Addresses wider than their column and
operations narrower than theirs do no harm, since only blanks are put in front of them, and the
operands end in a digit or a parenthesis, so that trimming a line never takes anything of them.

* `Row`: what a line shows, with registers of any number
* `Row.decode`: reads a listing back
* `listing_lossless`: a listing tells all of its rows
-/

namespace MiniC

/-- The operands of an instruction, in either form. -/
inductive Operands where
  | ro (r s t : Nat)
  | rm (r : Nat) (d : Int) (s : Nat)
deriving DecidableEq

/-- What the line of an instruction shows besides its address. -/
structure Row where
  op : Opcode
  operands : Operands
  comment : String
deriving DecidableEq

def Operands.text : Operands → String
  | .ro r s t => s!"{r}, {s}, {t}"
  | .rm r d s => s!"{r}, {d}({s})"

def Instr.row : Instr → Row
  | .ro op r s t comment => ⟨op, .ro r.val s.val t.val, comment⟩
  | .rm op r d s comment => ⟨op, .rm r.val d s.val, comment⟩

/-- All operations. -/
def Opcode.all : List Opcode :=
  [.halt, .read, .write, .add, .sub, .mul, .div, .ld, .lda, .ldc, .st, .jlt, .jle, .jgt, .jge, .jeq,
    .jne]

/-- The operation with a name. -/
def Opcode.ofMnemonic? (name : List Char) : Option Opcode :=
  Opcode.all.find? fun op => op.mnemonic.toList == name

namespace Row

/-- The line of a row at an address, not trimmed. -/
def text (row : Row) (address : Nat) : String :=
  let addressText := Text.alignRight 3 (toString address)
  let opText := Text.alignRight 5 row.op.mnemonic
  s!"{addressText}: {opText} {row.operands.text}  {row.comment}"

/-- The line of a row, trimmed at its end. -/
def line (row : Row) (address : Nat) : List Char :=
  Text.trimEnd (row.text address).toList

/-- The lines of the heading before that with the number of the instructions. -/
def headingLines (path : String) : List String :=
  ["* C-Minus Compilation to TM Code", s!"* File: {path}"]

/-- The heading up to the number of the instructions. -/
def heading (path : String) : String :=
  String.join ((headingLines path).map (· ++ "\n")) ++ "* Instructions: "

/-- The lines from an address on, each ended by a line feed. -/
def linesFrom (address : Nat) : List Row → List Char
  | [] => []
  | row :: rows => row.line address ++ '\n' :: linesFrom (address + 1) rows

/-- The listing of rows. -/
def listing (path : String) (rows : List Row) : String :=
  String.ofList ((heading path).toList ++ (toString rows.length).toList ++ '\n' :: linesFrom 0 rows)

/-- The row with white space dropped at the end of its remark. -/
def trimmed (row : Row) : Row :=
  { row with comment := String.ofList (Text.trimEnd row.comment.toList) }

/-! ### Reading back

The reader takes a line apart by the widths and the signs between its fields. It does not know how
many registers there are, and takes any number. -/

/-- Reads operands in either form, and gives what follows. -/
def decodeOperands (text : List Char) : Option (Operands × List Char) := do
  let (r, text) ← Decimal.takeNat text
  let text ← text.dropPrefix? [',', ' ']
  let (d, text) ← Decimal.takeInt text
  match text with
  | '(' :: text =>
    let (s, text) ← Decimal.takeNat text
    let text ← text.dropPrefix? [')']
    return (.rm r d s, text)
  | text =>
    let text ← text.dropPrefix? [',', ' ']
    let (t, text) ← Decimal.takeNat text
    return (.ro r d.toNat t, text)

/-- Reads the remark: two blanks stand before it, if there is one. -/
def decodeComment (text : List Char) : Option (List Char) :=
  if text.isEmpty then some [] else text.dropPrefix? [' ', ' ']

/-- Reads the line of a row at an address. -/
def decodeLine (address : Nat) (line : List Char) : Option Row := do
  let line ← line.dropPrefix? (s!"{Text.alignRight 3 (toString address)}: ").toList
  let line := line.dropWhile (· = ' ')
  let op ← Opcode.ofMnemonic? (line.takeWhile (· ≠ ' '))
  let line ← (line.dropWhile (· ≠ ' ')).dropPrefix? [' ']
  let (operands, line) ← decodeOperands line
  let comment ← decodeComment line
  return ⟨op, operands, String.ofList comment⟩

/-- Reads a number of lines from an address on. -/
def decodeLines : Nat → Nat → List Char → Option (List Row)
  | 0, _, _ => some []
  | count + 1, address, text => do
    let row ← decodeLine address (text.takeWhile (· ≠ '\n'))
    let text ← (text.dropWhile (· ≠ '\n')).dropPrefix? ['\n']
    return row :: (← decodeLines count (address + 1) text)

/-- Reads a listing of a source with this path. -/
def decode (path : String) (text : String) : Option (List Row) := do
  let text ← text.toList.dropPrefix? (heading path).toList
  let (count, text) ← Decimal.takeNat text
  let text ← text.dropPrefix? ['\n']
  decodeLines count 0 text

/-! ### Fields

Every field is followed by a character that cannot belong to it, so it is read to its end and no
further. -/

/-- A text that starts a longer one can be taken from it. -/
theorem dropPrefix?_append (front rest : List Char) :
    (front ++ rest).dropPrefix? front = some rest :=
  List.dropPrefix?_append_of_beq rest (BEq.refl front)

/-- An operation is found by its name. -/
theorem ofMnemonic?_mnemonic (op : Opcode) : Opcode.ofMnemonic? op.mnemonic.toList = some op := by
  cases op <;> decide

/-- Operands are read back, as long as what follows does not go on with a digit. -/
theorem decodeOperands_append (operands : Operands) {rest : List Char}
    (hrest : ∀ c ∈ rest.head?, c.isDigit = false) :
    decodeOperands (operands.text.toList ++ rest) = some (operands, rest) := by
  -- three registers, or a displacement and a register in brackets
  cases operands with
  | ro r s t =>
    have htext : (Operands.ro r s t).text.toList ++ rest =
        (toString r).toList ++ ([',', ' '] ++ ((toString (s : Int)).toList ++
          ([',', ' '] ++ ((toString t).toList ++ rest)))) := by
      simp only [Operands.text, String.toList_append, List.append_assoc]
      rfl
    rw [htext, decodeOperands, Decimal.takeNat_append (by simp)]
    simp only [Option.bind_eq_bind, Option.bind_some, dropPrefix?_append]
    rw [Decimal.takeInt_append (by simp)]
    show (([',', ' '] ++ ((toString t).toList ++ rest)).dropPrefix? [',', ' ']).bind _ = _
    rw [dropPrefix?_append, Option.bind_some, Decimal.takeNat_append hrest]
    rfl
  | rm r d s =>
    have htext : (Operands.rm r d s).text.toList ++ rest =
        (toString r).toList ++ ([',', ' '] ++ ((toString d).toList ++
          '(' :: ((toString s).toList ++ ([')'] ++ rest)))) := by
      simp only [Operands.text, String.toList_append, List.append_assoc]
      rfl
    rw [htext, decodeOperands, Decimal.takeNat_append (by simp)]
    simp only [Option.bind_eq_bind, Option.bind_some, dropPrefix?_append]
    rw [Decimal.takeInt_append (by simp)]
    simp only [Option.bind_some]
    rw [Decimal.takeNat_append (by simp), Option.bind_some, dropPrefix?_append]
    rfl

/-! ### Lines

A line is its fields in order, and the remark up to the end. What is lost is white space behind the
remark. -/

section Trimming

variable (a b : List Char)

/-- White space behind a text is trimmed, and what it is behind of is not if it ends in something
else. -/
theorem trimEnd_append :
    Text.trimEnd (a ++ b) = if Text.trimEnd b = [] then Text.trimEnd a else a ++
      Text.trimEnd b := by
  unfold Text.trimEnd
  rw [List.reverse_append, List.dropWhile_append]
  by_cases hb : b.reverse.dropWhile Text.isBlank = []
  · simp [hb]
  · simp [hb]

variable {a} in
/-- Trimming takes nothing of a text that does not end in white space. -/
theorem trimEnd_append_of_getLast (h : ∀ c ∈ a.getLast?, Text.isBlank c = false) :
    Text.trimEnd (a ++ b) = a ++ Text.trimEnd b := by
  have ha : Text.trimEnd a = a := by
    unfold Text.trimEnd
    cases hreverse : a.reverse with
    | nil => rw [List.dropWhile_nil, ← hreverse, List.reverse_reverse]
    | cons c rest =>
      have hlast : a.getLast? = some c := by
        rw [← List.head?_reverse, hreverse, List.head?_cons]
      rw [List.dropWhile_cons_of_neg (by simp [h c hlast]), ← hreverse, List.reverse_reverse]
  rw [trimEnd_append, ha]
  split
  · rename_i hb
    rw [hb, List.append_nil]
  · rfl

end Trimming

/-- Operands end in a digit or a parenthesis. -/
theorem exists_getLast?_operands (operands : Operands) :
    ∃ c, operands.text.toList.getLast? = some c ∧ Text.isBlank c = false := by
  cases operands with
  | ro r s t =>
    obtain ⟨c, hc⟩ : ∃ c, (toString t).toList.getLast? = some c :=
      ⟨_, List.getLast?_eq_some_getLast (Decimal.toString_toList_ne_nil t)⟩
    refine ⟨c, ?_, Decimal.isBlank_of_isDigit
      (Decimal.isDigit_of_mem_toString (List.mem_of_getLast? hc))⟩
    simp only [Operands.text, String.toList_append, List.getLast?_append, hc, Option.some_or]
  | rm r d s =>
    refine ⟨')', ?_, by decide⟩
    simp only [Operands.text, String.toList_append, List.getLast?_append]
    rfl

/-- A line in its fields: the blanks before the remark are there only if the remark is. -/
theorem line_eq (row : Row) (address : Nat) :
    row.line address = (s!"{Text.alignRight 3 (toString address)}: ").toList ++
      (List.replicate (5 - row.op.mnemonic.length) ' ' ++ (row.op.mnemonic.toList ++
        ([' '] ++ (row.operands.text.toList ++
          Text.trimEnd ([' ', ' '] ++ row.comment.toList))))) := by
  obtain ⟨c, hlast, hc⟩ := exists_getLast?_operands row.operands
  have htext : (row.text address).toList = ((s!"{Text.alignRight 3 (toString address)}: ").toList ++
      (List.replicate (5 - row.op.mnemonic.length) ' ' ++ (row.op.mnemonic.toList ++
        ([' '] ++ row.operands.text.toList)))) ++ ([' ', ' '] ++ row.comment.toList) := by
    have hstr : ∀ s : String, toString s = s := fun _ => rfl
    have hone : " ".toList = [' '] := rfl
    have htwo : "  ".toList = [' ', ' '] := rfl
    simp only [text, Text.alignRight, Text.blanks, String.toList_append, String.toList_ofList,
      List.append_assoc, hstr, hone, htwo]
  rw [line, htext, trimEnd_append_of_getLast]
  · simp only [List.append_assoc]
  · -- the operands are the last field before the remark
    simp only [List.getLast?_append, hlast, Option.some_or]
    rintro _ ⟨⟩
    exact hc

/-- The remark is read back without the white space at its end. -/
theorem decodeComment_trimEnd (comment : List Char) :
    decodeComment (Text.trimEnd ([' ', ' '] ++ comment)) = some (Text.trimEnd comment) := by
  rw [trimEnd_append]
  split
  · rename_i hblank
    rw [hblank]
    rfl
  · exact dropPrefix?_append _ _

/-- What is left of a remark behind blanks is nothing, or starts with these blanks. -/
theorem head?_trimEnd_blanks (comment : List Char) :
    ∀ c ∈ (Text.trimEnd ([' ', ' '] ++ comment)).head?, c.isDigit = false := by
  rw [trimEnd_append]
  split
  · exact nofun
  · rintro c ⟨⟩
    rfl

/-- The name of an operation has no blanks. -/
theorem blank_notMem_mnemonic (op : Opcode) : ' ' ∉ op.mnemonic.toList := by
  cases op <;> decide

/-- The blanks in front of the name of an operation are not part of it. -/
theorem dropWhile_blanks_mnemonic (op : Opcode) (k : Nat) (rest : List Char) :
    (List.replicate k ' ' ++ (op.mnemonic.toList ++ rest)).dropWhile (· = ' ') =
      op.mnemonic.toList ++ rest := by
  rw [List.dropWhile_append_of_pos fun c hc => by simpa using List.eq_of_mem_replicate hc]
  have hhead : op.mnemonic.toList.head? ≠ some ' ' := by cases op <;> decide
  have hne : op.mnemonic.toList ≠ [] := by cases op <;> decide
  obtain ⟨c, cs, hcs⟩ := List.exists_cons_of_ne_nil hne
  rw [hcs] at hhead ⊢
  exact List.dropWhile_cons_of_neg (by simpa using hhead)

/-- A line is read back, with its address. -/
theorem decodeLine_line (row : Row) (address : Nat) :
    decodeLine address (row.line address) = some row.trimmed := by
  have hname := blank_notMem_mnemonic row.op
  rw [line_eq, decodeLine, dropPrefix?_append]
  simp only [Option.bind_eq_bind, Option.bind_some, dropWhile_blanks_mnemonic,
    takeWhile_ne_append hname, dropWhile_ne_append hname, ofMnemonic?_mnemonic, dropPrefix?_append,
    decodeOperands_append _ (head?_trimEnd_blanks _), decodeComment_trimEnd]
  rfl

/-! ### Listings

Lines end with line feeds, which no field has in it, and no remark either by hypothesis. -/

/-- A number has no line break. -/
theorem break_notMem_toString (n : Nat) : '\n' ∉ (toString n).toList :=
  fun h => absurd (Decimal.isDigit_of_mem_toString h) (by decide)

/-- Operands have no line break. -/
theorem break_notMem_operands (operands : Operands) : '\n' ∉ operands.text.toList := by
  have hstr : ∀ s : String, toString s = s := fun _ => rfl
  have hcomma : '\n' ∉ ", ".toList := by decide
  have hopen : '\n' ∉ "(".toList := by decide
  have hclose : '\n' ∉ ")".toList := by decide
  cases operands with
  | ro r s t =>
    simp only [Operands.text, String.toList_append, hstr, List.mem_append, not_or, hcomma,
      break_notMem_toString, not_false_eq_true, and_self]
  | rm r d s =>
    have hd : '\n' ∉ (toString d).toList := by
      rw [Decimal.toList_toString_int]
      split
      · exact List.not_mem_cons_of_ne_of_not_mem (by decide) (break_notMem_toString _)
      · exact break_notMem_toString _
    simp only [Operands.text, String.toList_append, hstr, List.mem_append, not_or, hcomma, hopen,
      hclose, hd, break_notMem_toString, not_false_eq_true, and_self]

/-- Trimming adds no characters. -/
theorem mem_of_mem_trimEnd {text : List Char} {c : Char} (hc : c ∈ Text.trimEnd text) : c ∈ text :=
  List.mem_reverse.mp ((List.dropWhile_sublist _).subset (List.mem_reverse.mp hc))

/-- A line has a line break only if its remark has one. -/
theorem break_notMem_line {row : Row} (h : '\n' ∉ row.comment.toList) (address : Nat) :
    '\n' ∉ row.line address := by
  have hblanks : ∀ k, '\n' ∉ List.replicate k ' ' := fun k hmem =>
    absurd (List.eq_of_mem_replicate hmem) (by decide)
  have hname : '\n' ∉ row.op.mnemonic.toList := by cases row.op <;> decide
  have haddress : '\n' ∉ (s!"{Text.alignRight 3 (toString address)}: ").toList := by
    have hstr : ∀ s : String, toString s = s := fun _ => rfl
    have hcolon : '\n' ∉ ": ".toList := by decide
    simp only [Text.alignRight, Text.blanks, String.toList_append, String.toList_ofList, hstr,
      List.mem_append, not_or, hcolon, hblanks, break_notMem_toString, not_false_eq_true, and_self]
  have hone : '\n' ∉ [' '] := by decide
  have hrest : '\n' ∉ Text.trimEnd ([' ', ' '] ++ row.comment.toList) := fun hmem => by
    rcases List.mem_append.mp (mem_of_mem_trimEnd hmem) with hmem | hmem
    · exact absurd hmem (by decide)
    · exact h hmem
  rw [line_eq]
  simp only [List.mem_append, not_or]
  exact ⟨haddress, hblanks _, hname, hone, break_notMem_operands _, hrest⟩

/-- Lines are read back one by one, by induction on the rows. -/
theorem decodeLines_linesFrom {rows : List Row}
    (h : ∀ row ∈ rows, '\n' ∉ row.comment.toList) (address : Nat) :
    decodeLines rows.length address (linesFrom address rows) = some (rows.map trimmed) := by
  induction rows generalizing address with
  | nil => rfl
  | cons row rows ih =>
    obtain ⟨hrow, hrows⟩ := List.forall_mem_cons.mp h
    have hline := break_notMem_line hrow address
    have hlines : linesFrom address (row :: rows) =
        row.line address ++ (['\n'] ++ linesFrom (address + 1) rows) := rfl
    rw [hlines, List.length_cons, decodeLines, takeWhile_ne_append hline,
      dropWhile_ne_append hline, decodeLine_line, dropPrefix?_append]
    simp only [Option.bind_eq_bind, Option.bind_some, ih hrows (address + 1)]
    rfl

/-- A listing whose remarks have no line breaks is read back. -/
theorem decode_listing (path : String) {rows : List Row}
    (h : ∀ row ∈ rows, '\n' ∉ row.comment.toList) :
    decode path (listing path rows) = some (rows.map trimmed) := by
  have hbreak : ∀ c ∈ (['\n'] ++ linesFrom 0 rows).head?, c.isDigit = false := by
    rintro _ ⟨⟩
    rfl
  have htext : (listing path rows).toList = (heading path).toList ++
      ((toString rows.length).toList ++ (['\n'] ++ linesFrom 0 rows)) := by
    rw [listing, String.toList_ofList, List.append_assoc]
    rfl
  rw [decode, htext, dropPrefix?_append]
  simp only [Option.bind_eq_bind, Option.bind_some, Decimal.takeNat_append hbreak,
    dropPrefix?_append]
  exact decodeLines_linesFrom h 0

/-! ### Instructions

Rows are what the reader gives. An instruction has a row, and two instructions with the same row are
the same. -/

/-- The row of an instruction shows what its line in a listing shows. -/
theorem text_row (i : Instr) (address : Nat) : i.row.text address = i.listing address := by
  cases i <;> rfl

/-- A listing is its lines, one behind the other. -/
theorem toList_join_lines (code : List Instr) (address : Nat) :
    (String.join (((code.zipIdx address).map fun (i, a) =>
        String.ofList (Text.trimEnd (i.listing a).toList)).map (· ++ "\n"))).toList =
      linesFrom address (code.map Instr.row) := by
  induction code generalizing address with
  | nil => rfl
  | cons i code ih =>
    simp only [List.zipIdx_cons, List.map_cons, String.join_cons, String.toList_append, ih]
    simp only [linesFrom, line, text_row, String.toList_ofList, List.append_assoc]
    rfl

/-- The listing of a code is that of its rows. -/
theorem listingText_eq (path : String) (code : List Instr) :
    listingText path code = listing path (code.map Instr.row) := by
  have hlines : listingLines path code = headingLines path ++
      (s!"* Instructions: {code.length}" ::
        (code.zipIdx.map fun (i, a) => String.ofList (Text.trimEnd (i.listing a).toList))) := by
    rw [listingLines, List.mapIdx_eq_zipIdx_map]
    rfl
  rw [← String.toList_inj, listing, String.toList_ofList, listingText, hlines, heading,
    List.length_map, List.map_append, String.join_append, List.map_cons, String.join_cons]
  generalize String.join ((headingLines path).map (· ++ "\n")) = front
  rw [String.toList_append, String.toList_append, toList_join_lines, String.toList_append,
    String.toList_append, String.toList_append]
  generalize linesFrom 0 (code.map Instr.row) = rest
  simp only [List.append_assoc]
  rfl

/-- What two rows with the same line at an address agree in. -/
structure Agree (row row' : Row) : Prop where
  op : row.op = row'.op
  operands : row.operands = row'.operands
  comment : Text.trimEnd row.comment.toList = Text.trimEnd row'.comment.toList

/-- Rows with the same trimmed remark agree in all that a listing tells. -/
theorem Agree.of_trimmed {row row' : Row} (h : row.trimmed = row'.trimmed) : row.Agree row' := by
  obtain ⟨hop, hoperands, hcomment⟩ := Row.mk.inj h
  exact ⟨hop, hoperands, String.ofList_inj.mp hcomment⟩

end Row

/-- A listing loses nothing but the white space at the ends of the remarks: it can be read back,
whatever the addresses and the numbers, as long as no remark has a line break. So two sequences
with the same listing are as long as each other and agree at every address. -/
theorem listing_lossless (path : String) :
    (∀ code : List Instr, listingText path code = Row.listing path (code.map Instr.row)) ∧
      ∀ rows : List Row, (∀ row ∈ rows, '\n' ∉ row.comment.toList) →
        Row.decode path (Row.listing path rows) = some (rows.map Row.trimmed) ∧
          ∀ rows' : List Row, (∀ row ∈ rows', '\n' ∉ row.comment.toList) →
            Row.listing path rows = Row.listing path rows' → List.Forall₂ Row.Agree rows rows' := by
  refine ⟨Row.listingText_eq path, fun rows h => ⟨Row.decode_listing path h, ?_⟩⟩
  intro rows' h' heq
  have htrimmed : rows.map Row.trimmed = rows'.map Row.trimmed := by
    rw [← Option.some_inj, ← Row.decode_listing path h, ← Row.decode_listing path h', heq]
  rw [← List.forall₂_eq_eq_eq, List.forall₂_map_left_iff, List.forall₂_map_right_iff] at htrimmed
  exact htrimmed.imp fun _ _ => Row.Agree.of_trimmed

/-- Remarks that end in white space, that are nothing else, and that look like operands. -/
theorem listing_lossless_blanks :
    Row.decode "max.cm" (Row.listing "max.cm"
        [⟨.ldc, .rm 0 (-2147483648) 255, " low\t "⟩, ⟨.write, .ro 1 0 0, "(5), 6"⟩,
          ⟨.halt, .ro 0 0 0, "  "⟩]) =
      some [⟨.ldc, .rm 0 (-2147483648) 255, " low"⟩, ⟨.write, .ro 1 0 0, "(5), 6"⟩,
        ⟨.halt, .ro 0 0 0, ""⟩] ∧
    List.Forall₂ Row.Agree [⟨.halt, .ro 0 0 0, "  "⟩] [⟨.halt, .ro 0 0 0, ""⟩] := by
  refine ⟨?_, ?_⟩
  · rw [((listing_lossless "max.cm").2 _ (by decide)).1]
    decide
  · exact ((listing_lossless "max.cm").2 _ (by decide)).2 _ (by decide) (by decide +kernel)

end MiniC
