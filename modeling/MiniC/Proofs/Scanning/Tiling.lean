import Mathlib.Data.List.DropRight
import Mathlib.Data.List.Forall2
import Mathlib.Logic.Function.Iterate
import MiniC.Proofs.Scanning.Lexemes

/-!
# The tokens tile the source

Every byte of a source belongs to one token or to the filling between two tokens. A token stands at
a span of the source (`Stands`): it is the longest spelling there, or it reports a byte that starts
none, or a comment that is never closed. Between two spans there are blanks and whole comments only
(`Filler`), and the position of a token says how many rows end before it and where its row starts
(`Pos.ofOffset`).

* `skip_blank`: what is skipped is filling, and what follows starts none
* `Cursor.next_stands`: one step of the scanner
* `scan_tiling`: all of them
-/

namespace MiniC

/-! ## Positions

A position is the number of line feeds before a byte and its distance from the last of them
(`Pos.ofOffset`). The scanner does not count from the start each time but moves a position over what
it reads (`Pos.past`). Both come to the same (`Pos.ofOffset_append`). -/

namespace Pos

/-- The position of the byte at an offset: how many rows end before it, and how far it is from the
byte after the last line feed before it. -/
def ofOffset (source : List Char) (o : Nat) : Pos where
  row := (source.take o).count '\n'
  col := o - ((source.take o).rdropWhile (· ≠ '\n')).length

/-- The position behind a text that starts at `p`. -/
def past (p : Pos) (cs : List Char) : Pos :=
  cs.foldl after p

/-- No text moves the position nowhere. -/
@[simp] theorem past_nil (p : Pos) : p.past [] = p := rfl

/-- The first character moves the position first. -/
@[simp] theorem past_cons (p : Pos) (c : Char) (cs : List Char) :
    p.past (c :: cs) = (p.after c).past cs := rfl

/-- Texts one behind the other move the position one after the other. -/
@[simp] theorem past_append (p : Pos) (cs ds : List Char) :
    p.past (cs ++ ds) = (p.past cs).past ds :=
  List.foldl_append

/-- A text on one row moves the position to the right. -/
theorem past_of_notMem (p : Pos) {cs : List Char} (h : '\n' ∉ cs) :
    p.past cs = p.right cs.length := by
  induction cs generalizing p with
  | nil => rfl
  | cons c cs ih =>
    obtain ⟨hc, hcs⟩ := not_or.mp (mt List.mem_cons.mpr h)
    rw [past_cons, ih _ hcs, after, if_neg (Ne.symm hc)]
    simp [right]
    omega

/-- From the start of the source the position counts the line feeds, and what is behind the last of
them. By induction from the end of the text, where a character is a line feed or one more column. -/
theorem past_start (cs : List Char) :
    (⟨0, 0⟩ : Pos).past cs =
      ⟨cs.count '\n', cs.length - (cs.rdropWhile (· ≠ '\n')).length⟩ := by
  induction cs using List.reverseRecOn with
  | nil => rfl
  | append_singleton cs c ih =>
    have hle : (cs.rdropWhile (· ≠ '\n')).length ≤ cs.length :=
      (List.rdropWhile_prefix _ _).length_le
    rw [past_append, ih, past_cons, past_nil, after]
    -- a line feed is the last one of the text, and starts a new row
    by_cases hc : c = '\n'
    · subst hc
      rw [if_pos rfl, List.rdropWhile_concat_neg _ _ _ (by simp)]
      simp
    · rw [if_neg hc, List.rdropWhile_concat_pos _ _ _ (by simp [hc])]
      simp only [right, List.count_append, List.length_append, List.length_singleton,
        List.count_singleton, beq_iff_eq, hc, if_false, mk.injEq]
      omega

/-- The position of an offset is that behind the text before it. -/
theorem ofOffset_append (before rest : List Char) :
    ofOffset (before ++ rest) before.length = (⟨0, 0⟩ : Pos).past before := by
  rw [past_start, ofOffset, List.take_left]

/-- Strictly before, in reading order. -/
def lt (p q : Pos) : Prop :=
  p.row < q.row ∨ p.row = q.row ∧ p.col < q.col

/-- Reading order is transitive. -/
theorem lt.trans {p q r : Pos} (hpq : p.lt q) (hqr : q.lt r) : p.lt r := by
  simp only [lt] at *
  omega

/-- A position is not before itself. -/
theorem lt.ne {p q : Pos} (h : p.lt q) : p ≠ q := by
  rintro rfl
  simp [lt] at h

/-- Every character moves the position on, a line feed to the next row. -/
theorem lt_after (p : Pos) (c : Char) : p.lt (p.after c) := by
  unfold lt after
  split <;> simp [right]

/-- A text that is not empty moves the position on. -/
theorem lt_past (p : Pos) {cs : List Char} (h : cs ≠ []) : p.lt (p.past cs) := by
  induction cs generalizing p with
  | nil => exact absurd rfl h
  | cons c cs ih =>
    by_cases hcs : cs = []
    · simpa [hcs] using p.lt_after c
    · exact (p.lt_after c).trans (ih _ hcs)

/-- Bytes that stand one behind the other have positions in that order. -/
theorem ofOffset_lt {source : List Char} {o o' : Nat} (hlt : o < o') (hle : o' ≤ source.length) :
    (ofOffset source o).lt (ofOffset source o') := by
  have hpos : ∀ n ≤ source.length,
      ofOffset source n = (⟨0, 0⟩ : Pos).past (source.take n) := by
    intro n hn
    have happ := ofOffset_append (source.take n) (source.drop n)
    rwa [List.take_append_drop, List.length_take, Nat.min_eq_left hn] at happ
  -- the later byte stands behind the earlier one, with a text between them that is not empty
  have htake : source.take o' = source.take o ++ (source.drop o).take (o' - o) := by
    rw [← List.take_add, Nat.add_sub_cancel' hlt.le]
  rw [hpos o (by omega), hpos o' hle, htake, past_append]
  refine lt_past _ (List.ne_nil_of_length_pos ?_)
  rw [List.length_take, List.length_drop]
  omega

end Pos

/-! ## The filling between tokens

`Filler` has a case for each of the three states of the skipping loop. Its `rest` is the text
behind, since a line comment also ends where the text does. -/

namespace Token

/-- `Filler rest g`: the text `g`, with `rest` behind it, consists of blanks, line comments and
block comments. A line comment reaches to the end of its row, a block comment to the first `*/`. -/
inductive Filler (rest : List Char) : List Char → Prop
  | nil : Filler rest []
  | blank {c : Char} {g : List Char} : isBlank c → Filler rest g → Filler rest (c :: g)
  | line {body g : List Char} : '\n' ∉ body → (∀ c ∈ (g ++ rest).head?, c = '\n') →
      Filler rest g → Filler rest ('/' :: '/' :: (body ++ g))
  | block {body g : List Char} : ¬ ['*', '/'] <:+: body ++ ['*'] →
      Filler rest g → Filler rest ('/' :: '*' :: (body ++ '*' :: '/' :: g))

/-- No filling starts here. -/
structure NoFiller (rest : List Char) : Prop where
  blank : ∀ c ∈ rest.head?, ¬ isBlank c
  line : ¬ ['/', '/'] <+: rest
  block : ¬ ['/', '*'] <+: rest

/-- A line comment is skipped up to its line feed or to the end of the text. -/
theorem skip_line (p : Pos) (r : List Char) :
    ∃ body g, r = body ++ g ∧ '\n' ∉ body ∧ (∀ c ∈ g.head?, c = '\n') ∧
      skip .lineComment p r = skip .blank (p.past body) g := by
  induction r generalizing p with
  | nil => exact ⟨[], [], rfl, by simp, by simp, by simp [skip]⟩
  | cons c r ih =>
    by_cases hc : c = '\n'
    · subst hc
      exact ⟨[], '\n' :: r, rfl, by simp, by simp, by simp [skip, isBlank]⟩
    · obtain ⟨body, g, rfl, hbody, hg, hskip⟩ := ih (p.after c)
      refine ⟨c :: body, g, rfl, by simp [hbody, Ne.symm hc], hg, ?_⟩
      rw [skip, if_neg hc, hskip, Pos.past_cons]

/-- A block comment is skipped up to the first `*/`, or else to the end of the text, and then its
start is reported. -/
theorem skip_block (start p : Pos) (r : List Char) :
    (∃ body g, r = body ++ '*' :: '/' :: g ∧ ¬ ['*', '/'] <:+: body ++ ['*'] ∧
      skip (.blockComment start) p r = skip .blank (p.past (body ++ ['*', '/'])) g) ∨
    (¬ ['*', '/'] <:+: r ∧ skip (.blockComment start) p r = (some start, ⟨[], p.past r⟩)) := by
  induction r generalizing p with
  | nil => exact .inr ⟨by simp, rfl⟩
  | cons c r ih =>
    by_cases hclose : ['*', '/'] <+: c :: r
    · obtain ⟨g, hg⟩ := hclose
      refine .inl ⟨[], g, hg.symm, by decide, ?_⟩
      rw [← hg]
      simp [skip, Pos.after, Pos.right]
    · -- the first character does not close the comment, and so is skipped
      have hstep : skip (.blockComment start) p (c :: r) =
          skip (.blockComment start) (p.after c) r := by
        rw [skip]
        rintro g rfl rfl
        exact hclose ⟨g, rfl⟩
      rcases ih (p.after c) with ⟨body, g, rfl, hbody, hskip⟩ | ⟨hopen, hskip⟩
      · refine .inl ⟨c :: body, g, rfl, ?_, by rw [hstep, hskip]; rfl⟩
        rw [List.cons_append, List.infix_cons_iff]
        rintro (hpre | hin)
        · exact hclose (hpre.trans ⟨'/' :: g, by simp⟩)
        · exact hbody hin
      · refine .inr ⟨?_, by rw [hstep, hskip]; rfl⟩
        rw [List.infix_cons_iff]
        exact not_or.mpr ⟨hclose, hopen⟩

/-- What is skipped is filling. Behind it no filling starts, or a comment opens that is never
closed and reaches to the end of the text. -/
inductive Skipped (p : Pos) : List Char → Option Pos × Cursor → Prop
  | closed {g rest : List Char} : Filler rest g → NoFiller rest →
      Skipped p (g ++ rest) (none, ⟨rest, p.past g⟩)
  | unterminated {g body : List Char} : Filler ('/' :: '*' :: body) g → ¬ ['*', '/'] <:+: body →
      Skipped p (g ++ '/' :: '*' :: body)
        (some (p.past g), ⟨[], p.past (g ++ '/' :: '*' :: body)⟩)

/-- More filling in front of what is skipped. -/
theorem Skipped.prepend {p : Pos} {f cs : List Char} {result : Option Pos × Cursor}
    (hf : ∀ g rest, cs = g ++ rest → Filler rest g → Filler rest (f ++ g))
    (h : Skipped (p.past f) cs result) : Skipped p (f ++ cs) result := by
  cases h with
  | closed hg hrest =>
    rw [← Pos.past_append, ← List.append_assoc]
    exact .closed (hf _ _ rfl hg) hrest
  | unterminated hg hbody =>
    rw [← Pos.past_append, ← Pos.past_append, ← List.append_assoc]
    exact .unterminated (hf _ _ rfl hg) hbody

/-- What is skipped is filling, and no filling starts behind it. A comment starts with two
characters, so the recursion is on the length of the text. -/
theorem skip_blank (p : Pos) (cs : List Char) : Skipped p cs (skip .blank p cs) := by
  by_cases hline : ['/', '/'] <+: cs
  · obtain ⟨r, rfl⟩ := hline
    obtain ⟨body, g, rfl, hbody, hg, hskip⟩ := skip_line (p.right 2) r
    have hrest := skip_blank (p.past ('/' :: '/' :: body)) g
    rw [List.cons_append, List.cons_append, List.nil_append, skip, hskip]
    refine Skipped.prepend (f := '/' :: '/' :: body) ?_ hrest
    rintro g rest rfl hfill
    exact .line hbody hg hfill
  by_cases hblock : ['/', '*'] <+: cs
  · obtain ⟨r, rfl⟩ := hblock
    rw [List.cons_append, List.cons_append, List.nil_append, skip]
    rcases skip_block p (p.right 2) r with ⟨body, g, rfl, hbody, hskip⟩ | ⟨hopen, hskip⟩
    · have hrest := skip_blank (p.past ('/' :: '*' :: (body ++ ['*', '/']))) g
      have hcs : '/' :: '*' :: (body ++ '*' :: '/' :: g) =
          '/' :: '*' :: (body ++ ['*', '/']) ++ g := by simp
      rw [hskip, hcs]
      refine Skipped.prepend ?_ hrest
      intro g rest _ hfill
      simpa using hfill.block hbody
    -- nothing closes the comment, which is all that is left
    · rw [hskip]
      exact .unterminated .nil hopen
  cases cs with
  | nil => exact .closed .nil ⟨by simp, by simp, by simp⟩
  | cons c r =>
    -- no comment starts here, so one character decides
    have hskip : skip .blank p (c :: r) =
        if isBlank c then skip .blank (p.after c) r else (none, ⟨c :: r, p⟩) := by
      rw [skip]
      · rintro r rfl rfl
        exact hline ⟨r, rfl⟩
      · rintro r rfl rfl
        exact hblock ⟨r, rfl⟩
    rw [hskip]
    by_cases hc : isBlank c
    · rw [if_pos hc]
      exact Skipped.prepend (f := [c]) (fun g rest _ hfill => hfill.blank hc)
        (skip_blank (p.after c) r)
    · rw [if_neg hc]
      exact .closed .nil ⟨by simpa using hc, hline, hblock⟩
termination_by cs.length

/-! ## What a token says about its bytes

The scanner takes the longest spelling. `Reads` states this without a scanner, by comparison with
all spellings of all kinds, and `tokenAt_reads` shows that the scanner meets it. -/

/-- `Reads k text u rest`: a token of kind `k` and spelled `text` is what stands for the bytes `u`
before `rest`. It spells the longest token there; or it reports the byte that starts none, or a
comment that is not closed, which reaches to the end. -/
inductive Reads : Kind → String → List Char → List Char → Prop
  | lexeme {k : Kind} {text : String} {u rest : List Char} : Lexeme k u → octets text = u →
      (∀ k' u', Lexeme k' u' → u' <+: u ++ rest → u'.length ≤ u.length) →
      NoFiller (u ++ rest) → Reads k text u rest
  | stray {c : Char} {rest : List Char} : (∀ k' u', Lexeme k' u' → ¬ u' <+: c :: rest) →
      NoFiller (c :: rest) → Reads (.invalid (strayFault c)) (strayFault c).message [c] rest
  | unterminated {body : List Char} : ¬ ['*', '/'] <:+: body →
      Reads (.invalid .unterminatedComment) (LexicalFault.message .unterminatedComment)
        ('/' :: '*' :: body) []

/-- A token stands for one byte at least. -/
theorem Reads.ne_nil {k : Kind} {text : String} {u rest : List Char} (h : Reads k text u rest) :
    u ≠ [] := by
  cases h with
  | lexeme hu => exact hu.ne_nil
  | stray | unterminated => simp

/-- Only the end of the input has the kind of the end of the input. -/
theorem Reads.kind_ne_eof {k : Kind} {text : String} {u rest : List Char}
    (h : Reads k text u rest) : k ≠ .eof := by
  cases h with
  | lexeme hu => exact hu.kind_ne_eof
  | stray | unterminated => simp

/-- The bytes of a token determine its kind and its spelling. -/
theorem Reads.unique {k k' : Kind} {text text' : String} {u rest rest' : List Char}
    (h : Reads k text u rest) (h' : Reads k' text' u rest') : k = k' ∧ text = text' := by
  cases h with
  | lexeme hu htext _ hstart =>
    cases h' with
    | lexeme hu' htext' =>
      exact ⟨hu.kind_unique hu', octets_injective (htext.trans htext'.symm)⟩
    -- a spelling at a byte that starts none
    | stray hnone => exact absurd (List.prefix_append ..) (hnone _ _ hu)
    | unterminated => exact absurd (List.prefix_append ..) hstart.block
  | stray hnone =>
    cases h' with
    | lexeme hu' => exact absurd (List.prefix_append ..) (hnone _ _ hu')
    | stray => exact ⟨rfl, rfl⟩
  | unterminated =>
    cases h' with
    | lexeme _ _ _ hstart' => exact absurd (List.prefix_append ..) hstart'.block
    | unterminated => exact ⟨rfl, rfl⟩

/-- A token that is no comment stays on its row. -/
theorem newline_notMem_longest {c : Char} {r : List Char} (hstart : NoFiller (c :: r)) :
    '\n' ∉ c :: r.take (longest c r).2 := by
  rcases lexeme_longest c r with hlex | hstray
  · exact hlex.newline_notMem
  · have hblank := hstart.blank
    simp only [isBlank, List.head?_cons, Option.mem_def, Option.some.injEq, Bool.or_eq_true,
      decide_eq_true_eq, forall_eq', not_or] at hblank
    simp [hstray, Ne.symm hblank.2]

end Token

namespace Cursor

/-- A token has the position it is read at. -/
theorem tokenAt_pos (c : Char) (r : List Char) (p : Pos) : (tokenAt c r p).pos = p := by
  unfold tokenAt
  split <;> rfl

/-- The scanner takes the longest spelling, or else reports the byte that starts none. -/
theorem tokenAt_reads {c : Char} {r : List Char} (hstart : Token.NoFiller (c :: r)) (p : Pos) :
    Token.Reads (tokenAt c r p).kind (tokenAt c r p).text
      (c :: r.take (Token.longest c r).2) (r.drop (Token.longest c r).2) := by
  rcases Token.lexeme_longest c r with hlex | hstray
  · have hpre : c :: r.take (Token.longest c r).2 <+: c :: r :=
      List.cons_prefix_cons.mpr ⟨rfl, List.take_prefix _ _⟩
    have hvalid := (Token.length_le_longest hlex hpre).2
    have htoken : tokenAt c r p = ⟨(Token.longest c r).1,
        String.ofList (c :: r.take (Token.longest c r).2), p⟩ := by
      unfold tokenAt
      split
      · rename_i fault n hl
        exact absurd (congrArg Prod.fst hl) (hvalid fault)
      · rename_i k n _ hl
        rw [hl]
    rw [htoken]
    refine .lexeme hlex hlex.octets_text ?_ (by simpa using hstart)
    intro k' u' hu' hpre'
    have hpre' : u' <+: c :: r := by simpa using hpre'
    have hle := (Token.length_le_longest hu' hpre').1
    have hlen := hpre'.length_le
    simp only [List.length_cons, List.length_take] at hlen ⊢
    omega
  · have htoken : tokenAt c r p = Token.ofFault (Token.strayFault c) p := by
      simp only [tokenAt, hstray]
    have hnone : ∀ k' u', Token.Lexeme k' u' → ¬ u' <+: c :: r := by
      intro k' u' hu' hpre
      exact (Token.length_le_longest hu' hpre).2 _ (by rw [hstray])
    rw [htoken, hstray]
    exact .stray hnone hstart

/-- A cursor is before a token, with filling up to it, or there is nothing but filling left. -/
theorem next_reads (cursor : Cursor) :
    (Token.Filler [] cursor.rest ∧
      cursor.next = (Token.ofEnd (cursor.pos.past cursor.rest),
        ⟨[], cursor.pos.past cursor.rest⟩)) ∨
    ∃ g u rest, cursor.rest = g ++ (u ++ rest) ∧ Token.Filler (u ++ rest) g ∧
      Token.Reads cursor.next.1.kind cursor.next.1.text u rest ∧
      cursor.next.1.pos = cursor.pos.past g ∧
      cursor.next.2 = ⟨rest, (cursor.pos.past g).past u⟩ := by
  obtain ⟨cs, p⟩ := cursor
  have hskip := Token.skip_blank p cs
  cases hs : Token.skip .blank p cs with
  | mk opened behind =>
    rw [hs] at hskip
    cases hskip with
    -- the comment that is never closed is the token, and the last one
    | @unterminated g body hg hbody =>
      have hnext : next ⟨g ++ '/' :: '*' :: body, p⟩ =
          (Token.ofFault .unterminatedComment (p.past g),
            ⟨[], p.past (g ++ '/' :: '*' :: body)⟩) := by
        simp only [next, hs]
      rw [hnext]
      refine .inr ⟨g, '/' :: '*' :: body, [], by simp, by simpa using hg, .unterminated hbody,
        rfl, ?_⟩
      rw [Pos.past_append]
    | @closed g rest hg hrest =>
      cases rest with
      | nil =>
        rw [List.append_nil] at hs ⊢
        refine .inl ⟨hg, ?_⟩
        simp only [next, hs]
      | cons c r =>
        have hnext : next ⟨g ++ c :: r, p⟩ = (tokenAt c r (p.past g),
            ⟨r.drop (Token.longest c r).2, (p.past g).right ((Token.longest c r).2 + 1)⟩) := by
          simp only [next, hs]
        have hreads := tokenAt_reads hrest (p.past g)
        rw [hnext]
        refine .inr ⟨g, _, _, by simp, by simpa using hg, hreads, tokenAt_pos .., ?_⟩
        -- a token is on one row, so the position behind it is to the right
        have hline := Token.newline_notMem_longest hrest
        have hle := Token.longest_le c r
        rw [Pos.past_of_notMem _ hline, List.length_cons, List.length_take, Nat.min_eq_left hle]

end Cursor

/-! ## Spans

The scanner starts behind some text of the source and leaves off behind more of it. By induction on
what is left, the tokens it finds stand at spans with filling between them. -/

/-- A stretch of the source, by the offset of its first byte and of the byte behind it. -/
structure Span where
  start : Nat
  stop : Nat

/-- The token `t` stands at the span `s`. -/
structure Token.Stands (source : List Char) (t : Token) (s : Span) : Prop where
  nonempty : s.start < s.stop
  inside : s.stop ≤ source.length
  reads : Token.Reads t.kind t.text (source.extract s.start s.stop) (source.drop s.stop)
  pos : t.pos = Pos.ofOffset source s.start

/-- From the offset `o` on the source is filling, but for the spans. -/
def FilledFrom (source : List Char) : Nat → List Span → Prop
  | o, [] => Token.Filler [] (source.drop o)
  | o, s :: spans => o ≤ s.start ∧
      Token.Filler (source.drop s.start) (source.extract o s.start) ∧
      FilledFrom source s.stop spans

/-- The tokens stand at the spans, in order, with filling between them, and the end of the input is
the end of the source. -/
structure Tiling (source : List Char) (stream : TokenStream) (spans : List Span) : Prop where
  stands : List.Forall₂ (Token.Stands source) stream.tokens spans
  increasing : (spans.map Span.start).Pairwise (· < ·)
  filled : FilledFrom source 0 spans
  stop : stream.stop = Pos.ofOffset source source.length

/-- The middle one of three texts stands between the lengths before and behind it. -/
theorem extract_append (a b c : List Char) :
    (a ++ b ++ c).extract a.length (a ++ b).length = b := by
  simp [List.append_assoc]

namespace Cursor

/-- The cursor is in the source behind the text `before`. -/
structure Behind (source before : List Char) (cursor : Cursor) : Prop where
  rest : source = before ++ cursor.rest
  pos : cursor.pos = (⟨0, 0⟩ : Pos).past before

/-- One step of the scanner: a token behind some filling, or the end of the input. -/
theorem next_stands {source before : List Char} {cursor : Cursor}
    (h : Behind source before cursor) :
    (Token.Filler [] (source.drop before.length) ∧
      cursor.next.1 = Token.ofEnd (Pos.ofOffset source source.length)) ∨
    ∃ (s : Span) (seen : List Char), before.length ≤ s.start ∧ s.stop = seen.length ∧
      Token.Filler (source.drop s.start) (source.extract before.length s.start) ∧
      Token.Stands source cursor.next.1 s ∧ Behind source seen cursor.next.2 := by
  obtain ⟨hrest, hpos⟩ := h
  rcases cursor.next_reads with ⟨hfill, hnext⟩ | ⟨g, u, rest, hcs, hfill, hreads, htoken, hbehind⟩
  · have hend := Pos.ofOffset_append source []
    rw [List.append_nil] at hend
    refine .inl ⟨by rwa [hrest, List.drop_left], ?_⟩
    rw [hnext, hpos, ← Pos.past_append, ← hrest, hend]
  · have hsource : source = before ++ g ++ u ++ rest := by rw [hrest, hcs]; simp
    have hu : source = before ++ g ++ (u ++ rest) := by rw [hsource, List.append_assoc]
    refine .inr ⟨⟨(before ++ g).length, (before ++ g ++ u).length⟩, before ++ g ++ u,
      by simp, rfl, ?_, ⟨?_, ?_, ?_, ?_⟩, ⟨?_, ?_⟩⟩
    · rw [hu, List.drop_left, extract_append]
      exact hfill
    · simpa [List.length_pos_iff] using hreads.ne_nil
    · rw [hsource]
      simp
    · rw [hsource, List.drop_left, extract_append]
      exact hreads
    · rw [htoken, hu, Pos.ofOffset_append, Pos.past_append, hpos]
    · rw [hbehind, hsource]
    · rw [hbehind, Pos.past_append, Pos.past_append, hpos]

theorem tokens_tiling {source before : List Char} {cursor : Cursor}
    (h : Behind source before cursor) :
    ∃ spans, List.Forall₂ (Token.Stands source) cursor.tokens.tokens spans ∧
      (spans.map Span.start).Pairwise (· < ·) ∧ (∀ s ∈ spans, before.length ≤ s.start) ∧
      FilledFrom source before.length spans ∧
      cursor.tokens.stop = Pos.ofOffset source source.length := by
  induction cursor using tokens.induct generalizing before with
  | case1 cursor hend =>
    rw [tokens, dif_pos hend]
    rcases next_stands h with ⟨hfill, hnext⟩ | ⟨s, seen, -, -, -, hstands, -⟩
    · exact ⟨[], .nil, by simp, by simp, hfill, by rw [hnext]; rfl⟩
    · exact absurd hend hstands.reads.kind_ne_eof
  | case2 cursor hmore ih =>
    rw [tokens, dif_neg hmore]
    rcases next_stands h with ⟨-, hnext⟩ | ⟨s, seen, hle, hstop, hfill, hstands, hbehind⟩
    · exact absurd (by rw [hnext]; rfl) hmore
    · obtain ⟨spans, hspans, hincr, hge, hfilled, hend⟩ := ih hbehind
      have hlt : ∀ s' ∈ spans, s.start < s'.start := fun s' hs' =>
        Nat.lt_of_lt_of_le hstands.nonempty (hstop ▸ hge s' hs')
      refine ⟨s :: spans, .cons hstands hspans, ?_, ?_, ⟨hle, hfill, hstop ▸ hfilled⟩, hend⟩
      · simpa [List.pairwise_cons] using ⟨hlt, hincr⟩
      · refine List.forall_mem_cons.mpr ⟨hle, fun s' hs' => ?_⟩
        exact Nat.le_trans hle (hlt s' hs').le

/-! ## Repeated calls

The tokens of a scan are those of calls one after the other, and behind the last one every call
gives the end again. -/

/-- At the end of the input the cursor stays. -/
theorem next_of_eof {cursor : Cursor} (h : cursor.next.1.kind = .eof) :
    ∃ p, cursor.next = (Token.ofEnd p, ⟨[], p⟩) := by
  rcases cursor.next_reads with ⟨-, hnext⟩ | ⟨g, u, rest, -, -, hreads, -, -⟩
  · exact ⟨_, hnext⟩
  · exact absurd h hreads.kind_ne_eof

/-- The tokens that repeated calls of `next` give, one after the other; from the end on every call
gives the end. -/
theorem next_iterate (cursor : Cursor) (i : Nat) :
    ((fun c => (next c).2)^[i] cursor).next.1 =
      cursor.tokens.tokens.getD i (Token.ofEnd cursor.tokens.stop) := by
  induction i generalizing cursor with
  | zero =>
    rw [Function.iterate_zero, id, tokens]
    split
    · rename_i hend
      obtain ⟨p, hnext⟩ := next_of_eof hend
      rw [hnext]
      rfl
    · rfl
  | succ i ih =>
    rw [Function.iterate_succ_apply, ih, tokens.eq_1 cursor]
    split
    · rename_i hend
      obtain ⟨p, hnext⟩ := next_of_eof hend
      have hstay : (⟨[], p⟩ : Cursor).next.1 = Token.ofEnd p := rfl
      rw [hnext, tokens, dif_pos (by rw [hstay]; rfl), hstay]
      rfl
    · rfl

end Cursor

theorem pos_pairwise {source : List Char} {tokens : List Token} {spans : List Span}
    (h : List.Forall₂ (Token.Stands source) tokens spans)
    (hincr : (spans.map Span.start).Pairwise (· < ·)) :
    (tokens.map Token.pos ++ [Pos.ofOffset source source.length]).Pairwise Pos.lt := by
  induction h with
  | nil => simp
  | @cons t s tokens spans ht hrest ih =>
    rw [List.map_cons, List.pairwise_cons] at hincr
    refine .cons (fun p hp => ?_) (ih hincr.2)
    rw [ht.pos]
    obtain hp | hp := List.mem_append.mp hp
    · obtain ⟨t', ht', rfl⟩ := List.mem_map.mp hp
      obtain ⟨i, hi, rfl⟩ := List.getElem_of_mem ht'
      have hs := hrest.get hi (hrest.length_eq ▸ hi)
      simp only [List.get_eq_getElem] at hs
      rw [hs.pos]
      refine Pos.ofOffset_lt (hincr.1 _ (List.mem_map_of_mem (List.getElem_mem _))) ?_
      exact hs.nonempty.le.trans hs.inside
    · rw [List.mem_singleton.mp hp]
      exact Pos.ofOffset_lt (ht.nonempty.trans_le ht.inside) le_rfl

/-- The tokens of a source, the end of the input last, stand in reading order. -/
theorem scan_pos_pairwise (source : String) :
    ((scan source).toList.map Token.pos).Pairwise Pos.lt := by
  have hstart : Cursor.Behind (octets source) [] ⟨octets source, ⟨0, 0⟩⟩ := ⟨rfl, rfl⟩
  obtain ⟨spans, hstands, hincr, -, -, hstop⟩ := Cursor.tokens_tiling hstart
  have hpos := pos_pairwise hstands hincr
  rw [← hstop] at hpos
  rwa [TokenStream.toList, List.map_append]

/-- The tokens of a source tile it, and they are what repeated calls of `next` give. -/
theorem scan_tiling (source : String) :
    (∃ spans, Tiling (octets source) (scan source) spans) ∧
      ∀ i, ((fun c => (Cursor.next c).2)^[i] ⟨octets source, ⟨0, 0⟩⟩).next.1 =
        (scan source).tokens.getD i (Token.ofEnd (scan source).stop) := by
  have hstart : Cursor.Behind (octets source) [] ⟨octets source, ⟨0, 0⟩⟩ := ⟨rfl, rfl⟩
  obtain ⟨spans, hstands, hincr, -, hfilled, hstop⟩ := Cursor.tokens_tiling hstart
  exact ⟨⟨spans, hstands, hincr, hfilled, hstop⟩, Cursor.next_iterate _⟩

end MiniC
