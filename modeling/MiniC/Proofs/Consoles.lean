import MiniC.Command.Console
import MiniC.Proofs.Limits

/-!
# Printing

What is printed is added to what is there. Texts that are printed one after the other are printed
altogether if there is room for all of them, and otherwise up to the first that there is no room
for; the fault is then that of the console. A program does not take back what was printed before it
began.

* `Console.Fits`: there is room for a text
* `Console.printAll_of_fits`, `Console.not_fits_of_printAll`: when texts are printed
* `Console.Extends`, `Console.extends_run`: what a run leaves on the console
-/

namespace MiniC

namespace Console

variable {c c' c'' : Console} {text : String} {texts : List String} {fault : FileFault}

/-- There is room for a text behind what has been printed. -/
def Fits (c : Console) (text : String) : Prop :=
  ∀ l, c.limit = some l → c.output.utf8ByteSize + text.utf8ByteSize ≤ l.bytes

/-! ### Texts

A text that finds no room leaves the console as it was, so of a list of texts those in front of it
have been printed. -/

/-- A text is not refused if there is room for it. -/
theorem refusal?_eq_none_iff : c.refusal? text = none ↔ c.Fits text := by
  unfold refusal? Fits
  cases c.limit with
  | none => simp
  | some l => simp

/-- A text is refused if there is no room for it, with the fault that the console is set to. -/
theorem refusal?_eq_some_iff :
    c.refusal? text = some fault ↔ ¬c.Fits text ∧ ∃ l, c.limit = some l ∧ l.fault = fault := by
  unfold refusal? Fits
  cases c.limit with
  | none => simp
  | some l => simp [and_comm, eq_comm]

/-- A text for which there is room is printed. -/
theorem print_of_fits (h : c.Fits text) :
    c.print text = (.ok (), { c with output := c.output ++ text }) := by
  rw [print, refusal?_eq_none_iff.mpr h]

/-- A text that is refused leaves the console as it is. -/
theorem print_of_refusal (h : c.refusal? text = some fault) : c.print text = (.error fault, c) := by
  rw [print, h]

/-- Printing takes from the room what it prints. -/
theorem fits_append (t : String) :
    c.Fits (text ++ t) ↔ ({ c with output := c.output ++ text } : Console).Fits t := by
  simp only [Fits, String.utf8ByteSize_append, Nat.add_assoc]

/-- Where there is room for two texts there is room for the first. -/
theorem Fits.left {t : String} (h : c.Fits (text ++ t)) : c.Fits text := by
  intro l hl
  have hroom := h l hl
  rw [String.utf8ByteSize_append] at hroom
  omega

/-- If the first text is printed, the others follow. -/
theorem printAll_cons_of_fits (h : c.Fits text) (rest : List String) :
    c.printAll (text :: rest) =
      ({ c with output := c.output ++ text } : Console).printAll rest := by
  rw [printAll, print_of_fits h]

/-- If the first text is refused, nothing is printed. -/
theorem printAll_cons_of_refusal (h : c.refusal? text = some fault) (rest : List String) :
    c.printAll (text :: rest) = (.error fault, c) := by
  rw [printAll, print_of_refusal h]

/-- Texts are printed if there is room for all of them. By induction on the texts: what is left of
the room when the first has been printed is enough for the others. -/
theorem printAll_of_fits (h : c.Fits (String.join texts)) :
    c.printAll texts = (.ok (), { c with output := c.output ++ String.join texts }) := by
  induction texts generalizing c with
  | nil => rw [printAll, String.join_nil, String.append_empty]
  | cons text rest ih =>
    rw [String.join_cons] at h ⊢
    rw [printAll_cons_of_fits h.left, ih ((fits_append _).mp h), String.append_assoc]

/-- Texts that have been printed are there behind one another. -/
theorem eq_of_printAll (h : c.printAll texts = (.ok (), c')) :
    c' = { c with output := c.output ++ String.join texts } := by
  induction texts generalizing c with
  | nil =>
    cases h
    rw [String.join_nil, String.append_empty]
  | cons text rest ih =>
    cases hprint : c.refusal? text with
    | some fault =>
      rw [printAll_cons_of_refusal hprint] at h
      cases h
    | none =>
      rw [printAll_cons_of_fits (refusal?_eq_none_iff.mp hprint)] at h
      rw [ih h, String.join_cons, String.append_assoc]

/-- Texts that cannot be printed are too much for the console, and the fault is the one that it has
for this. Those that were printed before are there. -/
theorem not_fits_of_printAll (h : c.printAll texts = (.error fault, c')) :
    ¬c.Fits (String.join texts) ∧ ∃ l, c.limit = some l ∧ l.fault = fault := by
  refine ⟨fun hfits => ?_, ?_⟩
  · rw [printAll_of_fits hfits] at h
    cases h
  · induction texts generalizing c with
    | nil => cases h
    | cons text rest ih =>
      cases hprint : c.refusal? text with
      | some fault' =>
        rw [printAll_cons_of_refusal hprint] at h
        cases h
        exact (refusal?_eq_some_iff.mp hprint).2
      | none =>
        rw [printAll_cons_of_fits (refusal?_eq_none_iff.mp hprint)] at h
        -- the limit is the same behind the first text
        have hrest := ih h
        exact hrest

/-! ### Runs

A word that is written is a line of text; reading leaves the output alone. -/

/-- All that one console has printed the other one has too, perhaps with more behind it. -/
def Extends (c c' : Console) : Prop :=
  ∃ text, c'.output = c.output ++ text

/-- Nothing was printed yet. -/
theorem Extends.refl (c : Console) : c.Extends c :=
  ⟨"", String.append_empty.symm⟩

/-- What was printed first stays there. -/
theorem Extends.trans (h : c.Extends c') (h' : c'.Extends c'') : c.Extends c'' := by
  obtain ⟨text, htext⟩ := h
  obtain ⟨more, hmore⟩ := h'
  exact ⟨text ++ more, by rw [hmore, htext, String.append_assoc]⟩

/-- Reading prints nothing. -/
theorem output_read (c : Console) : c.read.2.output = c.output := by
  unfold read
  split <;> rfl

/-- A word is written as its line, or not at all. -/
theorem write_cases (c : Console) (w : Word) :
    c.Fits (lineOfWord w) ∧
        write w c = (.ok (), { c with output := c.output ++ lineOfWord w }) ∨
      ∃ reason, write w c = (.error (.output reason), c) := by
  unfold write
  cases hprint : c.refusal? (lineOfWord w) with
  | some fault =>
    rw [print_of_refusal hprint]
    exact .inr ⟨_, rfl⟩
  | none =>
    have hfits := refusal?_eq_none_iff.mp hprint
    rw [print_of_fits hfits]
    exact .inl ⟨hfits, rfl⟩

/-- Writing a word leaves what was printed before. -/
theorem extends_write (c : Console) (w : Word) : c.Extends (write w c).2 := by
  rcases write_cases c w with ⟨-, hwrite⟩ | ⟨reason, hwrite⟩
  · rw [hwrite]
    exact ⟨_, rfl⟩
  · rw [hwrite]
    exact .refl c

/-- A run leaves what was printed before. -/
theorem extends_run (code : Array Instr) (limit : Nat) (m : Machine) (c : Console) :
    c.Extends (m.run code device limit c).io := by
  refine Machine.io_runFor (P := c.Extends) ?_ ?_ code (.refl c) limit m
  · exact fun c' h => h.trans ⟨"", by rw [String.append_empty]; exact output_read c'⟩
  · exact fun w c' h => h.trans (extends_write c' w)

end Console

end MiniC
