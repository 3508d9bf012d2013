import Mathlib.Data.List.TakeWhile
import MiniC.Proofs.Scanning.Bytes

/-!
# The spellings of tokens

The spellings a token may have, as a table and two patterns: the operators and delimiters, the
digit runs, and the words, nine of which are reserved. `Token.longest` finds the longest spelling
at the front of a text: `lexeme_longest` says that what it finds is a spelling, `length_le_longest`
that no other is longer.

* `Token.Lexeme`: the spellings of each kind of token
* `Token.Lexeme.octets_text`: spellings are ASCII, so their bytes are their characters
-/

namespace MiniC

namespace Token

/-- The characters of spellings: ASCII, and behind the blanks. -/
def isGraphic (c : Char) : Prop :=
  ' '.toNat < c.toNat ∧ c.toNat < 128

/-- A character between two graphic ones is graphic. -/
theorem isGraphic_of_le {c a b : Char} (h : a.val ≤ c.val ∧ c.val ≤ b.val)
    (ha : ' '.toNat < a.toNat) (hb : b.toNat < 128) : isGraphic c :=
  ⟨Nat.lt_of_lt_of_le ha (UInt32.le_iff_toNat_le.mp h.1),
    Nat.lt_of_le_of_lt (UInt32.le_iff_toNat_le.mp h.2) hb⟩

/-- The letters. -/
theorem isAlpha_iff {c : Char} :
    c.isAlpha ↔ 'A'.val ≤ c.val ∧ c.val ≤ 'Z'.val ∨ 'a'.val ≤ c.val ∧ c.val ≤ 'z'.val := by
  show (decide ('A'.val ≤ c.val ∧ c.val ≤ 'Z'.val) ||
    (decide ('a'.val ≤ c.val) && decide (c.val ≤ 'z'.val))) = true ↔ _
  simp only [Bool.or_eq_true, Bool.and_eq_true, decide_eq_true_eq]

/-- Letters, digits and the underscore are graphic. -/
theorem isGraphic_of_isWordRest {c : Char} (h : isWordRest c) : isGraphic c := by
  simp only [isWordRest, Char.isAlphanum, isAlpha_iff, Char.isDigit, Bool.or_eq_true,
    Bool.and_eq_true, decide_eq_true_eq] at h
  obtain ((h | h) | h) | rfl := h
  · exact isGraphic_of_le h (by decide) (by decide)
  · exact isGraphic_of_le h (by decide) (by decide)
  · exact isGraphic_of_le h (by decide) (by decide)
  · exact ⟨by decide, by decide⟩

/-- A digit may stand inside a name. -/
theorem isWordRest_of_isDigit {c : Char} (h : c.isDigit) : isWordRest c := by
  simp [isWordRest, Char.isAlphanum, h]

/-- What may start a name may stand inside it. -/
theorem isWordRest_of_isWordStart {c : Char} (h : isWordStart c) : isWordRest c := by
  simp only [isWordStart, isWordRest, Char.isAlphanum, Bool.or_eq_true] at h ⊢
  exact h.imp_left .inl

/-- No digit starts a name. -/
theorem not_isDigit_of_isWordStart {c : Char} (h : isWordStart c) : ¬ c.isDigit := by
  have hle : 'A'.toNat ≤ c.toNat := by
    simp only [isWordStart, isAlpha_iff, Bool.or_eq_true, decide_eq_true_eq] at h
    obtain (⟨h, -⟩ | ⟨h, -⟩) | rfl := h
    · exact UInt32.le_iff_toNat_le.mp h
    · exact Nat.le_trans (by decide) (UInt32.le_iff_toNat_le.mp h)
    · decide
  rw [Char.isDigit_iff_toNat]
  rintro ⟨-, hge⟩
  exact absurd (Nat.le_trans hle hge) (by decide)

/-! ## Spellings

Symbols and reserved words are listed, and so are the digits and letters that make numbers and
names. The list of symbols is not ordered: that `<=` is found before `<` is a property of the
scanner. -/

/-- The operators and delimiters. Negation has two spellings. -/
def symbols : List (Kind × List Char) :=
  [(.leftParen, ['(']), (.rightParen, [')']), (.leftBrace, ['{']), (.rightBrace, ['}']),
    (.leftBracket, ['[']), (.rightBracket, [']']), (.comma, [',']), (.semicolon, [';']),
    (.minus, ['-']), (.plus, ['+']), (.slash, ['/']), (.star, ['*']),
    (.bang, ['!']), (.bang, ['~']), (.bangEqual, ['!', '=']),
    (.equal, ['=']), (.equalEqual, ['=', '=']),
    (.greater, ['>']), (.greaterEqual, ['>', '=']), (.less, ['<']), (.lessEqual, ['<', '=']),
    (.andAnd, ['&', '&']), (.orOr, ['|', '|'])]

/-- The nine reserved words. -/
def reserved : List (String × Kind) :=
  [("bool", .kwBool), ("else", .kwElse), ("false", .kwFalse), ("if", .kwIf), ("int", .kwInt),
    ("return", .kwReturn), ("true", .kwTrue), ("void", .kwVoid), ("while", .kwWhile)]

/-- A word is an identifier unless it is one of the reserved ones. -/
theorem ofWord_eq_lookup (w : String) : Kind.ofWord w = (reserved.lookup w).getD .identifier := by
  unfold Kind.ofWord
  split
  iterate 9 · rfl
  · have hnone : reserved.lookup w = none := by
      simp only [List.lookup_eq_none_iff, reserved, List.forall_mem_cons, bne_iff_ne]
      refine ⟨?_, ?_, ?_, ?_, ?_, ?_, ?_, ?_, ?_, by simp⟩
      all_goals assumption
    rw [hnone, Option.getD_none]

/-- Every word has a kind. -/
theorem ofWord_ne_invalid (w : String) (fault : LexicalFault) :
    Kind.ofWord w ≠ .invalid fault := by
  unfold Kind.ofWord
  split <;> simp

/-- No digit and no letter is a symbol or the first byte of one. -/
theorem longest_of_isDigit {c : Char} (h : c.isDigit) (r : List Char) :
    longest c r = (.integer, (r.takeWhile Char.isDigit).length) := by
  unfold longest
  split
  all_goals first
    | exact absurd h (by decide)
    | rw [if_pos h]

/-- At a letter the scanner takes a word, as long as it goes. -/
theorem longest_of_isWordStart {c : Char} (h : isWordStart c) (r : List Char) :
    longest c r = (Kind.ofWord (String.ofList (c :: r.takeWhile isWordRest)),
      (r.takeWhile isWordRest).length) := by
  have hdigit := not_isDigit_of_isWordStart h
  unfold longest
  split
  all_goals first
    | exact absurd h (by decide)
    | rw [if_neg hdigit, if_pos h]

/-- `Lexeme k u`: a token of kind `k` may be spelled `u`. -/
inductive Lexeme : Kind → List Char → Prop
  | symbol {k : Kind} {u : List Char} : (k, u) ∈ symbols → Lexeme k u
  | number {c : Char} {r : List Char} : c.isDigit → (∀ d ∈ r, d.isDigit) → Lexeme .integer (c :: r)
  | word {c : Char} {r : List Char} : isWordStart c → (∀ d ∈ r, isWordRest d) →
      Lexeme ((reserved.lookup (String.ofList (c :: r))).getD .identifier) (c :: r)

/-- The end of the input has no spelling. -/
theorem Lexeme.kind_ne_eof {k : Kind} {u : List Char} (h : Lexeme k u) : k ≠ .eof := by
  cases h with
  | symbol h =>
    have hall : ∀ s ∈ symbols, s.1 ≠ .eof := by decide
    exact hall _ h
  | number => simp
  | word =>
    rw [← ofWord_eq_lookup]
    unfold Kind.ofWord
    split <;> simp

/-- The characters of a spelling are graphic: so they are ASCII, and neither blanks nor line feeds.
-/
theorem Lexeme.graphic {k : Kind} {u : List Char} (h : Lexeme k u) : ∀ c ∈ u, isGraphic c := by
  cases h with
  | symbol h =>
    have hall : (symbols.all fun s => s.2.all fun c => ' '.toNat < c.toNat ∧ c.toNat < 128) := by
      decide
    simp only [List.all_eq_true, decide_eq_true_eq] at hall
    exact hall _ h
  | number hc hr =>
    refine List.forall_mem_cons.mpr ⟨isGraphic_of_isWordRest (isWordRest_of_isDigit hc), ?_⟩
    exact fun d hd => isGraphic_of_isWordRest (isWordRest_of_isDigit (hr d hd))
  | word hc hr =>
    refine List.forall_mem_cons.mpr ⟨?_, fun d hd => isGraphic_of_isWordRest (hr d hd)⟩
    exact isGraphic_of_isWordRest (isWordRest_of_isWordStart hc)

/-- Every spelling has a character. -/
theorem Lexeme.ne_nil {k : Kind} {u : List Char} (h : Lexeme k u) : u ≠ [] := by
  cases h with
  | symbol h =>
    have hall : ∀ s ∈ symbols, s.2 ≠ [] := by decide
    exact hall _ h
  | number | word => simp

/-- A spelling is its own bytes. -/
theorem Lexeme.octets_text {k : Kind} {u : List Char} (h : Lexeme k u) :
    octets (String.ofList u) = u :=
  octets_ofList fun c hc => (h.graphic c hc).2

/-- No spelling goes over the end of a row. -/
theorem Lexeme.newline_notMem {k : Kind} {u : List Char} (h : Lexeme k u) : '\n' ∉ u :=
  fun hmem => absurd (h.graphic _ hmem).1 (by decide)

/-- A spelling belongs to one kind of token. -/
theorem Lexeme.kind_unique {k k' : Kind} {u : List Char} (h : Lexeme k u) (h' : Lexeme k' u) :
    k = k' := by
  have hall : (symbols.all fun s => s.2.head?.all fun c => ¬ c.isDigit ∧ ¬ isWordStart c) := by
    decide
  have hheads : ∀ s ∈ symbols, ∀ c, s.2.head? = some c → ¬ c.isDigit ∧ ¬ isWordStart c := by
    intro s hs c hc
    simpa [hc] using List.all_eq_true.mp hall s hs
  have hkinds : ∀ s ∈ symbols, ∀ s' ∈ symbols, s.2 = s'.2 → s.1 = s'.1 := by decide
  cases h with
  | symbol h =>
    cases h' with
    | symbol h' => exact hkinds _ h _ h' rfl
    | number hc => exact absurd hc (hheads _ h _ rfl).1
    | word hc => exact absurd hc (hheads _ h _ rfl).2
  | number hc =>
    cases h' with
    | symbol h' => exact absurd hc (hheads _ h' _ rfl).1
    | number => rfl
    | word hc' => exact absurd hc (not_isDigit_of_isWordStart hc')
  | word hc =>
    cases h' with
    | symbol h' => exact absurd hc (hheads _ h' _ rfl).2
    | number hc' => exact absurd hc' (not_isDigit_of_isWordStart hc)
    | word => rfl

/-- The complaint about a byte that starts no token. -/
def strayFault (c : Char) : LexicalFault :=
  if c = '&' then .loneAmpersand else if c = '|' then .loneBar else .strayByte

/-! ## The longest spelling

Looking at the first one or two characters is enough to tell which kinds of spelling can start
there. -/

/-- The scanner does not read beyond the end of the text. -/
theorem longest_le (c : Char) (r : List Char) : (longest c r).2 ≤ r.length := by
  unfold longest
  split
  all_goals first
    | exact Nat.zero_le _
    | exact Nat.le_add_left ..
    | skip
  have hword := (List.takeWhile_prefix isWordRest (l := r)).length_le
  have hdigit := (List.takeWhile_prefix Char.isDigit (l := r)).length_le
  split
  · exact hdigit
  · split
    · exact hword
    · exact Nat.zero_le _

/-- The longest front of a list with a property, by its length. -/
theorem take_length_takeWhile (p : Char → Bool) (r : List Char) :
    r.take (r.takeWhile p).length = r.takeWhile p :=
  (List.prefix_iff_eq_take.mp (List.takeWhile_prefix p)).symm

/-- What is found is a spelling, or a single byte that is none is reported. -/
theorem lexeme_longest (c : Char) (r : List Char) :
    Lexeme (longest c r).1 (c :: r.take (longest c r).2) ∨
      longest c r = (.invalid (strayFault c), 0) := by
  by_cases hdigit : c.isDigit
  · rw [longest_of_isDigit hdigit, take_length_takeWhile]
    exact .inl (.number hdigit fun d hd => List.mem_takeWhile_imp hd)
  by_cases hword : isWordStart c
  · rw [longest_of_isWordStart hword, take_length_takeWhile, ofWord_eq_lookup]
    exact .inl (.word hword fun d hd => List.mem_takeWhile_imp hd)
  · unfold longest
    split
    all_goals first
      | exact .inl (.symbol (by simp only [List.take_zero, List.take_succ_cons]; decide))
      | exact .inr rfl
      | skip
    · rw [if_neg hdigit, if_neg hword]
      refine .inr ?_
      rw [strayFault, if_neg ‹_›, if_neg ‹_›]

/-- No front of a list with a property is longer than the longest one. -/
theorem length_le_takeWhile {p : Char → Bool} {u r : List Char} (hu : ∀ d ∈ u, p d)
    (h : u <+: r) : u.length ≤ (r.takeWhile p).length := by
  obtain ⟨t, rfl⟩ := h
  rw [List.takeWhile_append_of_pos hu]
  simp

/-- No spelling at the front of a text is longer than the one found there, and where none is found
there is none. -/
theorem length_le_longest {k : Kind} {u : List Char} (hu : Lexeme k u) {c : Char} {r : List Char}
    (hpre : u <+: c :: r) :
    u.length ≤ (longest c r).2 + 1 ∧ ∀ fault, (longest c r).1 ≠ .invalid fault := by
  cases hu with
  | symbol h =>
    simp only [symbols, List.mem_cons, Prod.mk.injEq, List.not_mem_nil, or_false] at h
    obtain ⟨t, ht⟩ := hpre
    rcases h with h | h | h | h | h | h | h | h | h | h | h | h | h | h | h | h | h | h | h | h |
        h | h | h
    all_goals
      obtain ⟨-, rfl⟩ := h
      obtain ⟨rfl, rfl⟩ := List.cons.inj ht
      -- only the operators of one character that begin one of two look at the next character
      first
      | exact ⟨Nat.le_refl _, fun _ => Kind.noConfusion⟩
      | unfold longest
        split <;> simp_all
  | number hc hr =>
    obtain ⟨rfl, hr'⟩ := List.cons_prefix_cons.mp hpre
    rw [longest_of_isDigit hc]
    exact ⟨Nat.succ_le_succ (length_le_takeWhile hr hr'), by simp⟩
  | word hc hr =>
    obtain ⟨rfl, hr'⟩ := List.cons_prefix_cons.mp hpre
    rw [longest_of_isWordStart hc]
    exact ⟨Nat.succ_le_succ (length_le_takeWhile hr hr'), ofWord_ne_invalid _⟩

end Token

end MiniC
