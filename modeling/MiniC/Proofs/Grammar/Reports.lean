import MiniC.Proofs.Grammar.Termination
import MiniC.Proofs.Scanning.Tiling

/-!
# The order of syntax errors

Errors are reported at the next token, at a token that was read just before, or at an equals sign
whose right side has been read since. The last two lie behind the next token. They do not come late:
an error that was found in the meantime silences them, and nothing in an expression ends that
silence. So errors are found in the order of the text, also across the places where the parser goes
on after an error.

* `Comes`: what the parse has done between two states, errors included
* `Quietly`: the same where no silence has been ended
* `quietExp`, `orderlyStmt`: the readers of expressions and of statements
* `parse_errors_ordered`: the errors of a source
-/

namespace MiniC

namespace Pos

/-- A place is not after itself. -/
theorem le_refl (p : Pos) : p.le p :=
  .inr ⟨rfl, Nat.le_refl _⟩

/-- Places are ordered. -/
theorem le_trans {p q r : Pos} (hpq : p.le q) (hqr : q.le r) : p.le r := by
  unfold le at *
  omega

/-- What comes before does not come after. -/
theorem lt.le {p q : Pos} (h : p.lt q) : p.le q := by
  unfold Pos.lt at h
  unfold Pos.le
  omega

end Pos

/-- The errors stand in reading order; several may be at one token. -/
def SyntaxError.InOrder (errors : List SyntaxError) : Prop :=
  errors.Pairwise fun e e' => e.pos.le e'.pos

namespace Parser

/-! ### The tokens ahead

An error names a token, and what must be shown is that the tokens named come in the order of the
source. The tokens that are still to be read do, by the order of the scan, and reading only takes
some away. -/

namespace State

/-- The tokens that are left, the end of the input last. -/
def ahead (s : State) : List Token :=
  (TokenStream.mk s.unread s.stop).toList

/-- The tokens that are left stand in reading order. -/
def Ordered (s : State) : Prop :=
  (s.ahead.map Token.pos).Pairwise Pos.lt

variable {s s' : State}

/-- The end of the input is always ahead. -/
theorem ahead_eq (s : State) : s.ahead = s.unread ++ [Token.ofEnd s.stop] := rfl

/-- The next token is ahead. -/
theorem current_mem_ahead (s : State) : s.current ∈ s.ahead := by
  rw [ahead_eq, current]
  cases s.unread with
  | nil => exact List.mem_singleton_self _
  | cons t rest => exact List.mem_cons_self

/-- The next token comes before all others that are left. -/
theorem Ordered.current_le (h : s.Ordered) {t : Token} (ht : t ∈ s.ahead) :
    s.current.pos.le t.pos := by
  rw [Ordered, ahead_eq] at h
  rw [ahead_eq] at ht
  rw [current]
  cases hunread : s.unread with
  | nil =>
    rw [hunread, List.nil_append, List.mem_singleton] at ht
    rw [ht]
    exact Pos.le_refl _
  | cons first rest =>
    rw [hunread, List.cons_append] at h ht
    rw [List.map_cons, List.pairwise_cons] at h
    rcases List.mem_cons.mp ht with rfl | ht
    · exact Pos.le_refl _
    · exact (h.1 _ (List.mem_map_of_mem ht)).le

/-- Reading takes tokens away at the front. -/
theorem ahead_suffix (hunread : s'.unread <:+ s.unread) (hstop : s'.stop = s.stop) :
    s'.ahead <:+ s.ahead := by
  obtain ⟨front, hfront⟩ := hunread
  exact ⟨front, by rw [ahead_eq, ahead_eq, hstop, ← hfront, List.append_assoc]⟩

/-- The tokens that are left stand in order if all did. -/
theorem Ordered.suffix (h : s.Ordered) (hahead : s'.ahead <:+ s.ahead) : s'.Ordered :=
  h.sublist (hahead.sublist.map Token.pos)

end State

/-! ### Between two states

`Comes` is the relation between the states before and after a reader: errors are only added, and
those added are at tokens between the two. It is not enough for a report at a token that was read
earlier, since errors may have been found further on in the meantime. There `Quietly` helps: if the
report is made at all, no silence has been ended since, so no error was found since either. -/

/-- From `s` the parse has come to `s'`. It has read on, and the errors that it has found are at
tokens that were ahead, up to the one that is next now, in reading order. -/
structure Comes (s s' : State) : Prop where
  unread : s'.unread <:+ s.unread
  stop : s'.stop = s.stop
  errors : ∃ found, s'.errors = s.errors ++ found ∧ SyntaxError.InOrder found ∧
    ∀ e ∈ found, e.token ∈ s.ahead ∧ e.pos.le s'.current.pos

/-- From `s` the parse has come to `s'` without ending a silence: if errors can be reported now,
they could be before, and none has been. -/
structure Quietly (s s' : State) : Prop extends Comes s s' where
  silent : s'.recovering = false → s.recovering = false ∧ s'.errors = s.errors

section Between

variable {s s' s'' : State}

/-- What is ahead later was ahead before. -/
theorem Comes.ahead (h : Comes s s') : s'.ahead <:+ s.ahead :=
  State.ahead_suffix h.unread h.stop

/-- Nothing is reported while reading on. -/
theorem Comes.of_errors (hunread : s'.unread <:+ s.unread) (hstop : s'.stop = s.stop)
    (herrors : s'.errors = s.errors) : Comes s s' :=
  ⟨hunread, hstop, [], by rw [herrors, List.append_nil], .nil, List.forall_mem_nil _⟩

/-- Nothing was done. -/
theorem Comes.refl (s : State) : Comes s s :=
  .of_errors (List.suffix_refl _) rfl rfl

/-- The next token never lies further back. -/
theorem Comes.current_le (h : Comes s s') (hs : s.Ordered) : s.current.pos.le s'.current.pos :=
  hs.current_le (h.ahead.mem s'.current_mem_ahead)

/-- What was found first is at tokens up to the one that was next in between, and what was found
then is at that token or later ones, so the errors are in order together. -/
theorem Comes.trans (h : Comes s s') (h' : Comes s' s'') (hs : s.Ordered) : Comes s s'' := by
  have hs' : s'.Ordered := hs.suffix h.ahead
  obtain ⟨hunread, hstop, found, herrors, hfound, hplace⟩ := h
  obtain ⟨hunread', hstop', found', herrors', hfound', hplace'⟩ := id h'
  have hahead : s'.ahead <:+ s.ahead := State.ahead_suffix hunread hstop
  refine ⟨hunread'.trans hunread, hstop'.trans hstop, found ++ found', ?_, ?_, ?_⟩
  · rw [herrors', herrors, List.append_assoc]
  · -- what is found first lies before the token at which the second part begins
    refine List.pairwise_append.mpr ⟨hfound, hfound', fun e he e' he' => ?_⟩
    exact Pos.le_trans (hplace e he).2 (hs'.current_le (hplace' e' he').1)
  · intro e he
    rcases List.mem_append.mp he with he | he
    · exact ⟨(hplace e he).1, Pos.le_trans (hplace e he).2 (h'.current_le hs')⟩
    · exact ⟨hahead.mem (hplace' e he).1, (hplace' e he).2⟩

/-- Nothing was done. -/
theorem Quietly.refl (s : State) : Quietly s s :=
  ⟨.refl s, fun h => ⟨h, rfl⟩⟩

/-- If no silence was ended twice, none was ended. -/
theorem Quietly.trans (h : Quietly s s') (h' : Quietly s' s'') (hs : s.Ordered) :
    Quietly s s'' := by
  refine ⟨h.toComes.trans h'.toComes hs, fun hsilent => ?_⟩
  obtain ⟨hsilent', herrors'⟩ := h'.silent hsilent
  obtain ⟨hbefore, herrors⟩ := h.silent hsilent'
  exact ⟨hbefore, herrors'.trans herrors⟩

/-- An error may be reported late, at the token that was next before: if it is reported at all, then
no other has been since. -/
theorem Quietly.report (h : Quietly s s') (hs : s.Ordered) (fault : SyntaxFault) :
    Quietly s (s'.report s.current fault) := by
  unfold State.report
  cases hrecovering : s'.recovering with
  | true => exact h
  | false =>
    obtain ⟨-, herrors⟩ := h.silent hrecovering
    refine ⟨⟨h.unread, h.stop, [⟨fault, s.current⟩], ?_, List.pairwise_singleton _ _, ?_⟩, ?_⟩
    · simp only [Bool.false_eq_true, if_false, herrors]
    · intro e he
      rw [List.mem_singleton.mp he]
      exact ⟨s.current_mem_ahead, h.current_le hs⟩
    · intro hsilent
      cases hsilent

end Between

/-! ### Reading on

Each operation of the parser on its state. Only those that synchronise end a silence. -/

namespace State

/-- Which tokens become the next ones does not depend on those that were. -/
theorem settle_unread (s : State) (unread tokens : List Token) :
    settle { s with unread } tokens = s.settle tokens := by
  induction tokens generalizing s unread with
  | nil => rfl
  | cons t rest ih =>
    unfold settle
    split
    · rw [← ih (s.report t _) unread]
      unfold report
      split <;> rfl
    · rfl

/-- Tokens that are not of the language are reported where they stand, in front of the next token.
Induction on the tokens. -/
theorem quietly_settle {s : State} {tokens : List Token} (hs : s.Ordered)
    (htokens : tokens <:+ s.unread) : Quietly s (s.settle tokens) := by
  induction tokens generalizing s with
  | nil => exact ⟨.of_errors htokens rfl rfl, fun h => ⟨h, rfl⟩⟩
  | cons t rest ih =>
    have hread : Quietly s { s with unread := t :: rest } :=
      ⟨.of_errors htokens rfl rfl, fun h => ⟨h, rfl⟩⟩
    unfold settle
    split
    · rename_i fault _
      -- an invalid token is reported where it stands, as the next one
      have hs₁ := hs.suffix hread.ahead
      have hreport := hread.trans ((Quietly.refl _).report hs₁ (.lexical fault)) hs
      have hrest : rest <:+ (report { s with unread := t :: rest } t (.lexical fault)).unread := by
        rw [report_unread]
        exact List.suffix_cons t rest
      have hsettle : (s.report t (.lexical fault)).settle rest =
          (report { s with unread := t :: rest } t (.lexical fault)).settle rest := by
        rw [← settle_unread (s.report t _) (t :: rest)]
        unfold report
        split <;> rfl
      rw [hsettle]
      exact hreport.trans (ih (hs.suffix hreport.ahead) hrest) hs
    · exact hread

/-- Reading a token ends no silence. -/
theorem quietly_advance {s : State} (hs : s.Ordered) : Quietly s s.advance := by
  have hlast : Quietly s { s with last := some s.current.kind } :=
    ⟨.of_errors (List.suffix_refl _) rfl rfl, fun h => ⟨h, rfl⟩⟩
  refine hlast.trans (quietly_settle (hs.suffix hlast.ahead) ?_) hs
  exact List.tail_suffix _

/-- Skipping tokens reports only those that are not of the language, in their order. Induction along
the skipped tokens. -/
theorem comes_seekPhrase {s : State} (hs : s.Ordered) : Comes s s.seekPhrase := by
  fun_induction seekPhrase s with
  | case1 s h => exact .refl s
  | case2 s h hphrase => exact .refl s
  | case3 s h hphrase ih =>
    have hnext := (quietly_advance hs).toComes
    exact hnext.trans (ih (hs.suffix hnext.ahead)) hs

/-- Ending a silence reports nothing by itself. -/
theorem comes_synchronize {s : State} (hs : s.Ordered) : Comes s s.synchronize := by
  have hend : Comes s { s with recovering := false } := .of_errors (List.suffix_refl _) rfl rfl
  exact hend.trans (comes_seekPhrase (hs.suffix hend.ahead)) hs

/-- Recovery finds its errors in order, if there was something to recover from. -/
theorem comes_recover {s : State} (hs : s.Ordered) (start : Pos) : Comes s (s.recover start) := by
  have hsync := comes_synchronize hs
  unfold recover
  split
  · dsimp only
    split
    · exact hsync.trans (quietly_advance (hs.suffix hsync.ahead)).toComes hs
    · exact hsync
  · exact .refl s

end State

/-! ### Readers that end no silence

`Quiet` is proved of a reader along its text, with one rule for each construct of the monad. A
reader that remembers a token and may report it later needs `QuietAt`, which speaks of the state in
which that token was next. -/

section Readers

variable {α β : Type}

/-- The reader ends no silence, and the errors that it finds stand in order. -/
def Quiet (r : Reader α) : Prop :=
  ∀ s a s', s.Ordered → r s = some (a, s') → Quietly s s'

/-- The same for a reader that may report an error at a token read before it. From where that token
was next, nothing that comes between may end a silence. -/
def QuietAt (t : Token) (r : Reader α) : Prop :=
  ∀ s₀ s a s', s₀.Ordered → s₀.current = t → Quietly s₀ s → r s = some (a, s') → Quietly s₀ s'

variable {t : Token}

/-- A reader that ends no silence does so wherever it starts. -/
theorem Quiet.at {r : Reader α} (h : Quiet r) (t : Token) : QuietAt t r := by
  intro s₀ s a s' hs₀ _ hcomes hrun
  exact hcomes.trans (h _ _ _ (hs₀.suffix hcomes.ahead) hrun) hs₀

/-- An answer reports nothing. -/
theorem QuietAt.pure (a : α) : QuietAt t (pure a) := by
  intro s₀ s b s' _ _ hcomes hrun
  obtain ⟨-, rfl⟩ := pure_eq_some_iff.mp hrun
  exact hcomes

/-- Readers in sequence may both report the remembered token. -/
theorem QuietAt.bind {x : Reader α} {f : α → Reader β} (hx : QuietAt t x)
    (hf : ∀ a, QuietAt t (f a)) : QuietAt t (x >>= f) := by
  intro s₀ s b s' hs₀ ht hcomes hrun
  obtain ⟨a, u, ha, hb⟩ := bind_eq_some_iff.mp hrun
  exact hf a _ _ _ _ hs₀ ht (hx _ _ _ _ hs₀ ht hcomes ha) hb

/-- The remembered token is reported. -/
theorem QuietAt.report (t : Token) (fault : SyntaxFault) : QuietAt t (report t fault) := by
  rintro s₀ s a s' hs₀ rfl hcomes ⟨⟩
  exact hcomes.report hs₀ fault

/-- An answer reports nothing. -/
theorem Quiet.pure (a : α) : Quiet (pure a) := by
  intro s b s' _ hrun
  obtain ⟨-, rfl⟩ := pure_eq_some_iff.mp hrun
  exact .refl s

/-- Readers in sequence. -/
theorem Quiet.bind {x : Reader α} {f : α → Reader β} (hx : Quiet x) (hf : ∀ a, Quiet (f a)) :
    Quiet (x >>= f) := by
  intro s b s' hs hrun
  obtain ⟨a, u, ha, hb⟩ := bind_eq_some_iff.mp hrun
  have hfirst := hx _ _ _ hs ha
  exact hfirst.trans (hf a _ _ _ (hs.suffix hfirst.ahead) hb) hs

/-- A choice between readers. -/
theorem Quiet.ite {p : Prop} [Decidable p] {r r' : Reader α} (h : Quiet r) (h' : Quiet r') :
    Quiet (if p then r else r') := by
  split
  · exact h
  · exact h'

/-- There is no answer without steps, and so no state afterwards. -/
theorem quiet_outOfSteps : Quiet (outOfSteps : Reader α) := by
  intro s a s' _ hrun
  cases hrun

/-- What follows may report errors at the token that is next. -/
theorem Quiet.peek {f : Token → Reader β} (hf : ∀ t, QuietAt t (f t)) :
    Quiet (Parser.peek >>= f) := by
  intro s b s' hs hrun
  obtain ⟨a, u, ha, hb⟩ := bind_eq_some_iff.mp hrun
  cases ha
  exact hf _ _ _ _ _ hs rfl (.refl s) hb

/-- What follows may report errors at the token that is read. -/
theorem Quiet.read {f : Token → Reader β} (hf : ∀ t, QuietAt t (f t)) :
    Quiet (Parser.read >>= f) := by
  intro s b s' hs hrun
  obtain ⟨a, u, ha, hb⟩ := bind_eq_some_iff.mp hrun
  cases ha
  exact hf _ _ _ _ _ hs rfl (State.quietly_advance hs) hb

/-- Reading ends no silence. -/
theorem quiet_read : Quiet read := by
  rintro s a s' hs ⟨⟩
  exact State.quietly_advance hs

/-- Accepting a token ends no silence, whether it is there or not. -/
theorem quiet_accept (kind : Token.Kind) : Quiet (accept kind) := by
  refine .peek fun t => Quiet.at ?_ t
  exact .ite (quiet_read.bind fun _ => .pure true) (.pure false)

/-- What follows may report errors at the token that was expected. -/
theorem Quiet.expect (kind : Token.Kind) (fault : SyntaxFault) {f : Option Token → Reader β}
    (hnone : Quiet (f none)) (hsome : ∀ t, QuietAt t (f (some t))) :
    Quiet (Parser.expect kind fault >>= f) := by
  intro s b s' hs hrun
  obtain ⟨a, u, ha, hb⟩ := bind_eq_some_iff.mp hrun
  rw [expect_eq] at ha
  split at ha
  · cases ha
    exact hsome _ _ _ _ _ hs rfl (State.quietly_advance hs) hb
  · cases ha
    have hreport := (Quietly.refl s).report hs fault
    exact hreport.trans (hnone _ _ _ (hs.suffix hreport.ahead) hb) hs

/-- A token that is missing is reported where it should be, at the next token. -/
theorem quiet_expect (kind : Token.Kind) (fault : SyntaxFault) : Quiet (expect kind fault) := by
  rw [← bind_pure (expect kind fault)]
  exact .expect kind fault (.pure none) fun t => .pure (some t)

/-- An assignment to something that cannot be assigned to is reported at its equals sign. -/
theorem quietAt_join (c : Connective) (t : Token) (lhs rhs : Exp) :
    QuietAt t (join c t lhs rhs) := by
  cases c with
  | binary op => exact .pure _
  | assignment =>
    cases lhs with
    | var ty v => exact .pure _
    | element ty v i => exact .pure _
    | _ => exact (QuietAt.report t _).bind fun _ => .pure rhs

/-- The readers of expressions end no silence, for a number of steps. -/
structure QuietExp (steps : Nat) : Prop where
  expression : ∀ level, Quiet (expression steps level)
  operand : Quiet (operand steps)
  connected : ∀ level lhs, Quiet (connected steps level lhs)
  arguments : Quiet (arguments steps)

/-- A number that is too large is reported at itself, and a token that starts no operand too, after
it was read. -/
theorem quiet_operand {steps : Nat} (ih : QuietExp steps) : Quiet (operand (steps + 1)) := by
  refine .read fun t => ?_
  obtain ⟨kind, text, pos⟩ := t
  cases kind with
  | leftParen =>
    exact ((ih.expression _).bind fun e => (quiet_expect _ _).bind fun _ => .pure e).at _
  | minus | bang => exact ((ih.expression _).bind fun e => .pure _).at _
  | integer =>
    dsimp only
    cases literal? text with
    | some value => exact .pure _
    | none => exact (QuietAt.report _ _).bind fun _ => .pure _
  | kwTrue | kwFalse => exact .pure _
  | identifier =>
    refine Quiet.at ((quiet_accept _).bind fun called => ?_) _
    cases called with
    | true =>
      refine .peek fun t => Quiet.at (.ite (Quiet.bind (.pure []) fun args => ?_)
        (ih.arguments.bind fun args => ?_)) t
      · exact (quiet_expect _ _).bind fun _ => .pure _
      · exact (quiet_expect _ _).bind fun _ => .pure _
    | false =>
      refine (quiet_accept _).bind fun indexed => ?_
      cases indexed with
      | true => exact (ih.expression _).bind fun i => (quiet_expect _ _).bind fun _ => .pure _
      | false => exact .pure _
  | _ => exact (QuietAt.report _ _).bind fun _ => .pure _

/-- An equals sign may be reported after its right side: only an expression comes in between. -/
theorem quiet_connected {steps : Nat} (ih : QuietExp steps) (level : Nat) (lhs : Exp) :
    Quiet (connected (steps + 1) level lhs) := by
  refine .peek fun next => Quiet.at ?_ next
  cases Connective.ofKind? next.kind with
  | none => exact .pure lhs
  | some c =>
    refine .ite (.read fun t => ?_) (.pure lhs)
    exact ((ih.expression _).at t).bind fun rhs =>
      (quietAt_join c t lhs rhs).bind fun e => (ih.connected level e).at t

/-- The readers of expressions end no silence. Induction on the steps. -/
theorem quietExp (steps : Nat) : QuietExp steps := by
  induction steps with
  | zero =>
    exact ⟨fun _ => quiet_outOfSteps, quiet_outOfSteps, fun _ _ => quiet_outOfSteps,
      quiet_outOfSteps⟩
  | succ steps ih =>
    refine ⟨fun level => ih.operand.bind (ih.connected level), quiet_operand ih,
      quiet_connected ih, ?_⟩
    refine (ih.expression _).bind fun e => (quiet_accept _).bind fun more => ?_
    cases more with
    | true => exact ih.arguments.bind fun rest => .pure _
    | false => exact .pure [e]

/-- Conditions are expressions in parentheses. -/
theorem quiet_test (steps : Nat) (construct : Construct) : Quiet (test steps construct) :=
  (quiet_expect _ _).bind fun _ => ((quietExp steps).expression _).bind fun e =>
    (quiet_expect _ _).bind fun _ => .pure e

/-- A token that names no type is reported while it is next. -/
theorem quiet_typeSpecifier : Quiet typeSpecifier := by
  refine .peek fun t => ?_
  cases baseType? t.kind with
  | some base => exact (quiet_read.bind fun _ => .pure _).at t
  | none => exact (QuietAt.report t _).bind fun _ => .pure none

/-- A size that is too large is reported at the number, which has been read. -/
theorem quiet_shape : Quiet shape := by
  refine (quiet_accept _).bind fun bracket => ?_
  cases bracket with
  | false => exact .pure _
  | true =>
    refine .expect _ _ (.pure none) fun size => ?_
    dsimp only
    cases literal? size.text with
    | none => exact (QuietAt.report size _).bind fun _ => .pure none
    | some n =>
      refine Quiet.at ((quiet_expect _ _).bind fun close => ?_) size
      cases close with
      | none => exact .pure none
      | some close => exact .pure _

/-- What follows the name of a variable ends no silence. -/
theorem quiet_variableRest (pos : Pos) (base : BaseType) (name : Token) :
    Quiet (variableRest pos base name) := by
  refine quiet_shape.bind fun shape => ?_
  cases shape with
  | none => exact .pure none
  | some shape =>
    refine (quiet_expect _ _).bind fun semi => ?_
    cases semi with
    | none => exact .pure none
    | some semi => exact .pure _

/-- Nor does a declaration as a whole. -/
theorem quiet_localVariable : Quiet localVariable := by
  refine quiet_typeSpecifier.bind fun spec => ?_
  cases spec with
  | none => exact .pure none
  | some spec =>
    refine (quiet_expect _ _).bind fun name => ?_
    cases name with
    | none => exact .pure none
    | some name => exact quiet_variableRest _ _ name

/-- Nor does what follows the type of a parameter. -/
theorem quiet_parameterRest (pos : Pos) (base : BaseType) : Quiet (parameterRest pos base) := by
  refine (quiet_expect _ _).bind fun name => ?_
  cases name with
  | none => exact .pure none
  | some name =>
    refine (quiet_accept _).bind fun bracket => ?_
    cases bracket with
    | false => exact .pure _
    | true =>
      refine (quiet_expect _ _).bind fun close => ?_
      cases close with
      | none => exact .pure none
      | some close => exact .pure _

/-- Parameters end no silence. Induction on the steps. -/
theorem quiet_parameterList (steps : Nat) (first : Bool) : Quiet (parameterList steps first) := by
  induction steps generalizing first with
  | zero => exact quiet_outOfSteps
  | succ steps ih =>
    refine quiet_typeSpecifier.bind fun spec => ?_
    cases spec with
    | none => exact .pure none
    | some spec =>
      refine .peek fun t => Quiet.at (.ite (.pure _) ?_) t
      refine (quiet_parameterRest _ _).bind fun param => ?_
      cases param with
      | none => exact .pure none
      | some param =>
        refine (quiet_accept _).bind fun more => ?_
        cases more with
        | false => exact .pure _
        | true =>
          refine (ih false).bind fun rest => ?_
          cases rest with
          | none => exact .pure none
          | some rest => exact .pure _

/-- The parameters of a function end no silence, also if there are none. -/
theorem quiet_parameters (steps : Nat) : Quiet (parameters steps) :=
  .peek fun t => Quiet.at (.ite (.pure _) (quiet_parameterList steps true)) t

end Readers

/-! ### Readers that go on after errors

Statements and declarations synchronise, so they are not quiet. They report no token that they read
before they synchronised, and `Orderly` is enough for them. -/

section Recovery

variable {α β : Type}

/-- The errors that the reader finds stand in order. -/
def Orderly (r : Reader α) : Prop :=
  ∀ s a s', s.Ordered → r s = some (a, s') → Comes s s'

/-- Who ends no silence finds errors in order. -/
theorem Quiet.orderly {r : Reader α} (h : Quiet r) : Orderly r :=
  fun _ _ _ hs hrun => (h _ _ _ hs hrun).toComes

/-- An answer reports nothing. -/
theorem Orderly.pure (a : α) : Orderly (pure a) :=
  (Quiet.pure a).orderly

/-- Readers in sequence: all that the first one has found comes before what the second one finds. -/
theorem Orderly.bind {x : Reader α} {f : α → Reader β} (hx : Orderly x)
    (hf : ∀ a, Orderly (f a)) : Orderly (x >>= f) := by
  intro s b s' hs hrun
  obtain ⟨a, u, ha, hb⟩ := bind_eq_some_iff.mp hrun
  have hfirst := hx _ _ _ hs ha
  exact hfirst.trans (hf a _ _ _ (hs.suffix hfirst.ahead) hb) hs

/-- A choice between readers. -/
theorem Orderly.ite {p : Prop} [Decidable p] {r r' : Reader α} (h : Orderly r)
    (h' : Orderly r') : Orderly (if p then r else r') := by
  split
  · exact h
  · exact h'

/-- There is no answer without steps. -/
theorem orderly_outOfSteps : Orderly (outOfSteps : Reader α) :=
  quiet_outOfSteps.orderly

/-- The state is asked for and stays as it was. -/
theorem orderly_get : Orderly (get : Reader State) := by
  rintro s a s' _ ⟨⟩
  exact .refl s

/-- A change of the state by one of its operations. -/
theorem orderly_modify {f : State → State} (hf : ∀ s : State, s.Ordered → Comes s (f s)) :
    Orderly (modify f) := by
  rintro s a s' hs ⟨⟩
  exact hf s hs

/-- What follows ends silences, or else it may report errors at the token that is next. -/
theorem Orderly.peek {f : Token → Reader β} (hf : ∀ t, Orderly (f t) ∨ QuietAt t (f t)) :
    Orderly (Parser.peek >>= f) := by
  intro s b s' hs hrun
  obtain ⟨a, u, ha, hb⟩ := bind_eq_some_iff.mp hrun
  cases ha
  rcases hf s.current with h | h
  · exact h _ _ _ hs hb
  · exact (h _ _ _ _ hs rfl (.refl s) hb).toComes

/-- Reading a token. -/
theorem orderly_read : Orderly read :=
  quiet_read.orderly

/-- Reading a token if it is of the kind. -/
theorem orderly_accept (kind : Token.Kind) : Orderly (accept kind) :=
  (quiet_accept kind).orderly

/-- Reading a token that is demanded. -/
theorem orderly_expect (kind : Token.Kind) (fault : SyntaxFault) : Orderly (expect kind fault) :=
  (quiet_expect kind fault).orderly

/-- Between declarations a silence can end. Induction on the steps. -/
theorem orderly_localVariables (steps : Nat) : Orderly (localVariables steps) := by
  induction steps with
  | zero => exact orderly_outOfSteps
  | succ steps ih =>
    refine .peek fun t => .inl (.ite ?_ (.pure []))
    refine quiet_localVariable.orderly.bind fun d => Orderly.bind (orderly_modify fun s hs => ?_)
      fun _ => ih.bind fun rest => .pure _
    split
    · exact s.comes_synchronize hs
    · exact .refl s

/-- The readers of statements find errors in order, for a number of steps. -/
structure OrderlyStmt (steps : Nat) : Prop where
  statement : Orderly (statement steps)
  blockRest : Orderly (blockRest steps)
  statements : Orderly (statements steps)

/-- A word with which a declaration starts is reported while it is next. Everything else is read in
order, with the statements inside given by the induction. -/
theorem orderly_statement {steps : Nat} (ih : OrderlyStmt steps) :
    Orderly (statement (steps + 1)) := by
  refine .peek fun t => ?_
  obtain ⟨kind, text, pos⟩ := t
  cases kind with
  | leftBrace => exact .inl (orderly_read.bind fun _ => ih.blockRest.bind fun _ => .pure _)
  | kwIf =>
    refine .inl (orderly_read.bind fun _ => (quiet_test _ _).orderly.bind fun condition =>
      ih.statement.bind fun thenBranch => (orderly_accept _).bind fun more => ?_)
    cases more with
    | true => exact ih.statement.bind fun elseBranch => .pure _
    | false => exact .pure _
  | kwWhile =>
    exact .inl (orderly_read.bind fun _ => (quiet_test _ _).orderly.bind fun condition =>
      ih.statement.bind fun body => .pure _)
  | kwReturn =>
    refine .inl (orderly_read.bind fun _ => (orderly_accept _).bind fun bare => ?_)
    cases bare with
    | true => exact .pure _
    | false =>
      exact ((quietExp _).expression _).orderly.bind fun e =>
        (orderly_expect _ _).bind fun _ => .pure _
  | semicolon => exact .inl (orderly_read.bind fun _ => .pure _)
  | kwInt | kwBool | kwVoid =>
    -- a declaration that comes too late is reported before it is read
    exact .inr ((QuietAt.report _ _).bind fun _ => (quiet_read.bind fun _ => .pure _).at _)
  | _ =>
    exact .inl (((quietExp _).expression _).orderly.bind fun e =>
      (orderly_expect _ _).bind fun _ => .pure _)

/-- The readers of statements find errors in order. Induction on the steps. -/
theorem orderlyStmt (steps : Nat) : OrderlyStmt steps := by
  induction steps with
  | zero => exact ⟨orderly_outOfSteps, orderly_outOfSteps, orderly_outOfSteps⟩
  | succ steps ih =>
    refine ⟨orderly_statement ih, ?_, ?_⟩
    · exact (orderly_localVariables steps).bind fun decls => ih.statements.bind fun body =>
        (orderly_expect _ _).bind fun _ => .pure _
    · refine orderly_get.bind fun s => .ite (.pure []) (ih.statement.bind fun first => ?_)
      exact (orderly_modify fun t ht => t.comes_recover ht _).bind fun _ =>
        ih.statements.bind fun rest => .pure _

/-- What follows the name of a function: parameters, and the block of a definition. -/
theorem orderly_functionRest (steps : Nat) (pos : Pos) (result : BaseType) (name : Token) :
    Orderly (functionRest steps pos result name) := by
  refine (quiet_parameters steps).orderly.bind fun params => ?_
  cases params with
  | none => exact .pure none
  | some params =>
    refine (orderly_expect _ _).bind fun close => ?_
    cases close with
    | none => exact .pure none
    | some close =>
      refine (orderly_accept _).bind fun bare => ?_
      cases bare with
      | true => exact .pure _
      | false =>
        refine (orderly_expect _ _).bind fun brace => ?_
        cases brace with
        | none => exact .pure none
        | some brace => exact (orderlyStmt steps).blockRest.bind fun body => .pure _

/-- A declaration of the outermost level. -/
theorem orderly_declaration (steps : Nat) : Orderly (declaration steps) := by
  refine quiet_typeSpecifier.orderly.bind fun spec => ?_
  cases spec with
  | none => exact .pure none
  | some spec =>
    refine (orderly_expect _ _).bind fun name => ?_
    cases name with
    | none => exact .pure none
    | some name =>
      refine (orderly_accept _).bind fun called => ?_
      cases called with
      | true => exact (orderly_functionRest _ _ _ _).bind fun f => .pure _
      | false => exact (quiet_variableRest _ _ _).orderly.bind fun v => .pure _

/-- Declarations up to the end of the input, with a silence ended before each. Induction on the
steps. -/
theorem orderly_declarations (steps : Nat) : Orderly (declarations steps) := by
  induction steps with
  | zero => exact orderly_outOfSteps
  | succ steps ih =>
    refine orderly_get.bind fun s => .ite (.pure []) ((orderly_declaration steps).bind fun d => ?_)
    exact (orderly_modify fun t ht => t.comes_recover ht _).bind fun _ =>
      ih.bind fun rest => .pure _

end Recovery

/-- Invalid tokens in front of the first one are reported before anything is read. -/
theorem comes_start {stream : TokenStream}
    (h : State.Ordered ⟨none, stream.tokens, stream.stop, [], false⟩) :
    Comes ⟨none, stream.tokens, stream.stop, [], false⟩ (start stream) := by
  have hsettle := (State.quietly_settle h (List.suffix_refl _)).toComes
  rwa [← State.settle_unread _ []] at hsettle

end Parser

namespace Parser

/-- The steps that a parse is given suffice for it. -/
theorem ends_declarations (source : String) :
    Ends (declarations (bound (scan source).tokens.length)) (start (scan source)) := by
  refine Activation.returns (a := ⟨.declarations, start (scan source)⟩) ?_
  have hlength := length_unread_start_le (scan source)
  have hrank := Activation.rank_lt ⟨.declarations, start (scan source)⟩
  show 8 * (start (scan source)).unread.length + _ < 8 * (scan source).tokens.length + 16
  omega

end Parser

/-- A source that is rejected has errors. They come in reading order, each at a token of the source,
at text that is no token, or at the end of the input. -/
theorem parse_errors_ordered {source : String} {errors : List SyntaxError}
    (h : parse source = .error errors) :
    errors ≠ [] ∧ SyntaxError.InOrder errors ∧ ∀ e ∈ errors, e.token ∈ (scan source).toList := by
  obtain ⟨⟨ds, s⟩, hrun⟩ := Parser.ends_declarations source
  unfold parse Program.ofTokens at h
  rw [StateT.run, hrun] at h
  dsimp only at h
  split at h
  · cases h
  · rename_i hsome
    cases h
    have hscan : Parser.State.Ordered
        ⟨none, (scan source).tokens, (scan source).stop, [], false⟩ := scan_pos_pairwise source
    have hstart := Parser.comes_start hscan
    have hrest := Parser.orderly_declarations _ _ _ _ (hscan.suffix hstart.ahead) hrun
    -- the parse starts without errors, so all of them were found on the way
    obtain ⟨found, herrors, horder, hplace⟩ := (hstart.trans hrest hscan).errors
    rw [List.nil_append] at herrors
    rw [herrors] at hsome ⊢
    exact ⟨by simpa using hsome, horder, fun e he => (hplace e he).1⟩

/-- A number that is read before it is refused, an equals sign that is refused after its right side,
a byte that is no token while an error is being recovered from, and the end of the input. -/
def mixedSource : String :=
  "int a[99999999999]; void f(void) \x7b 1 = 2 3; @ if (x"

/-- What a source is rejected for, with the places. -/
def rejection? (source : String) : Option (List (SyntaxFault × Pos)) :=
  match parse source with
  | .ok _ => none
  | .error errors => some (errors.map fun e => (e.fault, e.pos))

/-- Four kinds of errors, two of them reported after the token behind them was read. -/
theorem parse_errors_ordered_mixed : ∃ errors, parse mixedSource = .error errors ∧
    errors.map (fun e => (e.fault, e.pos)) =
      [(.arraySizeTooLarge, ⟨0, 6⟩), (.assignmentTarget, ⟨0, 37⟩), (.lexical .strayByte, ⟨0, 44⟩),
        (.openBlock, ⟨0, 51⟩)] ∧
    errors ≠ [] ∧ SyntaxError.InOrder errors ∧
      ∀ e ∈ errors, e.token ∈ (scan mixedSource).toList := by
  have hascii : Ascii mixedSource _ := ⟨rfl, rfl⟩
  have hrejection : rejection? mixedSource = some
      [(.arraySizeTooLarge, ⟨0, 6⟩), (.assignmentTarget, ⟨0, 37⟩), (.lexical .strayByte, ⟨0, 44⟩),
        (.openBlock, ⟨0, 51⟩)] := by
    rw [rejection?, parse, hascii.scan_eq]
    decide +kernel
  unfold rejection? at hrejection
  cases h : parse mixedSource with
  | ok tree =>
    rw [h] at hrejection
    cases hrejection
  | error errors =>
    rw [h] at hrejection
    exact ⟨errors, rfl, Option.some.inj hrejection, parse_errors_ordered h⟩

end MiniC
