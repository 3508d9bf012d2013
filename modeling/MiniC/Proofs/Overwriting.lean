import MiniC.Proofs.Grammar.Complete
import MiniC.Proofs.Scanning.Lexemes
import MiniC.Proofs.Sessions

/-!
# Sources that are written over

Without a name of its own, a listing goes to the path of the source with the extension `tm`. The
name is not compared with the one that the source has, so a source of that extension is lost: the
listing is written over it. Every other source is read back as it was.

* `parse_listingText_ne_ok`: no listing is a program
* `source_changed_iff`: when the source is lost
-/

namespace MiniC

/-! ### Listings are no sources

The first token of a listing is an asterisk, and no declaration begins with one. So the listing that
has replaced a source cannot be compiled. -/

theorem exists_octets_listingText (path : String) (code : List Instr) :
    ∃ rest, octets (listingText path code) = '*' :: rest := by
  have hascii : Ascii "* C-Minus Compilation to TM Code" _ := ⟨rfl, rfl⟩
  unfold listingText listingLines
  simp only [List.cons_append, List.map_cons, String.join_cons, octets_append, hascii.octets_eq]
  exact ⟨_, rfl⟩

/-- No listing is a program. The scanner is followed for one token, which the rules of the grammar
do not allow where a declaration must begin. -/
theorem parse_listingText_ne_ok (path : String) (code : List Instr) (tree : Program) :
    parse (listingText path code) ≠ .ok tree := by
  intro h
  obtain ⟨rest, hrest⟩ := exists_octets_listingText path code
  have hnext : (Cursor.next ⟨'*' :: rest, ⟨0, 0⟩⟩).1.kind = .star := by
    simp [Cursor.next, Token.skip, Token.isBlank, Cursor.tokenAt, Token.longest]
  obtain ⟨ts, hts⟩ : ∃ ts, (scan (listingText path code)).tokens =
      (Cursor.next ⟨'*' :: rest, ⟨0, 0⟩⟩).1 :: ts := by
    rw [scan, hrest, Cursor.tokens, dif_neg (by rw [hnext]; decide)]
    exact ⟨_, rfl⟩
  obtain ⟨-, hdecls, -⟩ := derives_of_parse h
  rw [hts] at hdecls
  generalize hall : (Cursor.next ⟨'*' :: rest, ⟨0, 0⟩⟩).1 :: ts = all at hdecls
  generalize tree.decls = decls at hdecls
  cases hdecls with
  | nil => cases hall
  | cons hdecl hlater =>
    obtain ⟨ty, base, us, rfl, hty⟩ := Parser.declaration_first hdecl
    obtain rfl : _ = ty := (List.cons.inj hall).1
    exact Parser.namesType_ne hty (by decide) hnext

/-! ### The default name

A path and its default output path are the same exactly if the extension is that of a listing. The
source is lost if, besides, the listing is written. -/

/-- The session writes the listing over the source: a listing is asked for, there is code to list,
and the source has the extension of listings. -/
structure Overwrites (o : Options) (files : FileSystem) (c : Console) (code : List Instr) :
    Prop where
  asked : o.generate = true
  generated : ∃ c', Generated o files c code c'
  named : HasExtension o.source "tm"

variable {o : Options} {files : FileSystem} {c c' : Console} {code : List Instr}

/-- The bytes of a source with code are no listing. -/
theorem Generated.exists_read (h : Generated o files c code c') :
    ∃ content, files.read o.source = .ok content ∧
      ∀ code', content ≠ (listingText o.source code').toUTF8 := by
  obtain ⟨-, tree, p, ⟨⟨text, hread, hparse⟩, -, -⟩, -⟩ := h
  simp only [sourceText, Except.bind_eq_ok_iff] at hread
  obtain ⟨content, hcontent, hread⟩ := hread
  refine ⟨content, hcontent, ?_⟩
  rintro code' rfl
  have htext : String.fromUTF8? (listingText o.source code').toUTF8 =
      some (listingText o.source code') := by
    simpa [String.fromUTF8?] using ⟨(listingText o.source code').isValidUTF8, rfl⟩
  rw [htext] at hread
  obtain rfl := Except.pure_eq_ok_iff.mp hread
  exact parse_listingText_ne_ok _ _ _ hparse

theorem Options.outputPath_of_none (h : o.output = none) :
    o.outputPath = withExtension o.source "tm" := by
  rw [Options.outputPath, h, Option.getD_none]

theorem Options.files_iff_of_none (h : o.output = none) : o.Files ↔ o.generate = true := by
  simp [Options.Files, h]

/-- A session without a name for the listing. -/
theorem Overwrites.read_source (h : Overwrites o files c code) (houtput : o.output = none) :
    (compile o files c).files.read o.source = .ok (listingText o.source code).toUTF8 := by
  obtain ⟨c', hgenerated⟩ := h.generated
  obtain ⟨content, hread, -⟩ := hgenerated.exists_read
  obtain ⟨l, name, hl⟩ := FileSystem.exists_leadsTo_of_read hread
  have hfiles := (Options.files_iff_of_none houtput).mpr h.asked
  have hpath : o.outputPath = o.source := by
    rw [Options.outputPath_of_none houtput, hl.withExtension_eq (by decide) h.named]
  have hwrite : files.write o.outputPath (listingText o.source code).toUTF8 =
      .ok (files.put (l.child name) (listingText o.source code).toUTF8) := by
    rw [hpath, hl.write_eq]
  rw [compile_of_listed hgenerated (.written _ hfiles hwrite), Session.conclude,
    hl.read_put hl hread, if_pos rfl]

theorem Overwrites.read_source_ne (h : Overwrites o files c code) (houtput : o.output = none) :
    (compile o files c).files.read o.source ≠ files.read o.source := by
  obtain ⟨c', hgenerated⟩ := h.generated
  obtain ⟨content, hread, hne⟩ := hgenerated.exists_read
  rw [h.read_source houtput, hread]
  exact fun heq => hne code (Except.ok.inj heq).symm

theorem read_source_of_not_overwrites (h : ∀ code, ¬ Overwrites o files c code)
    (houtput : o.output = none) :
    (compile o files c).files.read o.source = files.read o.source := by
  rcases rejected_or_accepted_or_generated o files c with
    ⟨fault, hrejected⟩ | ⟨tree, c', haccepts, hneeds⟩ | ⟨code, c', hgenerated⟩
  · rw [(compile_of_rejected hrejected).1]
  · rw [(compile_of_accepted haccepts hneeds).1]
  · rcases listed_or_unlisted o code files c' with ⟨files', c₂, hlisted⟩ | ⟨fault, hunlisted⟩
    · rw [compile_of_listed hgenerated hlisted, Session.conclude]
      cases hlisted with
      | unasked hgenerate => rfl
      | printed c₂ hprints hprint => rfl
      | written files' hfiles hwrite =>
        rw [Options.outputPath_of_none houtput] at hwrite
        obtain ⟨content, hread, -⟩ := hgenerated.exists_read
        obtain ⟨l, name, hl⟩ := FileSystem.exists_leadsTo_of_read hread
        obtain ⟨l', name', hl', rfl⟩ := FileSystem.exists_leadsTo_of_write hwrite
        have hplace : l.child name ≠ l'.child name' := by
          rw [Ne, hl.child_eq_iff hl' (by decide) (by decide)]
          exact fun hnamed => h code ⟨hfiles.1, ⟨c', hgenerated⟩, hnamed⟩
        rw [hl.read_put hl' hread, if_neg hplace, hread]
    · rw [(compile_of_unlisted hgenerated hunlisted).1]

/-- Without a name for the listing, the source is lost exactly if a listing is asked for, there is
code, and the source has the extension of listings: it is then left with the listing. The file
system has no links, so two paths are those of one file only if they lead to the same place. -/
theorem source_changed_iff (o : Options) (files : FileSystem) (c : Console)
    (houtput : o.output = none) :
    ((compile o files c).files.read o.source ≠ files.read o.source ↔
      ∃ code, Overwrites o files c code) ∧
    ∀ code, Overwrites o files c code →
      (compile o files c).files.read o.source = .ok (listingText o.source code).toUTF8 := by
  refine ⟨⟨fun hchanged => ?_, ?_⟩, fun code h => h.read_source houtput⟩
  · by_contra hnone
    exact hchanged (read_source_of_not_overwrites (not_exists.mp hnone) houtput)
  · rintro ⟨code, h⟩
    exact h.read_source_ne houtput

/-- A program in a file of the extension of listings. -/
def lostOptions : Options :=
  ⟨"prog.tm", false, false, true, none, false, defaultMemory, defaultMaxSteps⟩

def lostFiles : FileSystem :=
  .ofList [("prog.tm", "void main(void) \x7b \x7d".toUTF8)]

theorem exists_overwrites_lost : ∃ code, Overwrites lostOptions lostFiles (.ofInput []) code := by
  have hprepared : (prepare lostOptions (lostFiles.read lostOptions.source)
      (.ofInput [])).result.toOption.any Option.isSome = true := by
    decide +kernel
  have hextension : HasExtension lostOptions.source "tm" :=
    ⟨[], "prog".toList, ⟨rfl, .inl rfl, by decide⟩, by decide, by decide⟩
  rcases rejected_or_accepted_or_generated lostOptions lostFiles (.ofInput []) with
    ⟨fault, hrejected⟩ | ⟨tree, c', haccepts, hneeds⟩ | ⟨code, c', hgenerated⟩
  · rw [prepare_of_rejected hrejected] at hprepared
    cases hprepared
  · rw [prepare_of_accepted haccepts hneeds] at hprepared
    cases hprepared
  · exact ⟨code, rfl, ⟨c', hgenerated⟩, hextension⟩

theorem read_lost_ne : (compile lostOptions lostFiles (.ofInput [])).files.read lostOptions.source ≠
    lostFiles.read lostOptions.source := by
  obtain ⟨code, h⟩ := exists_overwrites_lost
  exact h.read_source_ne rfl

theorem source_changed_iff_lost : lostOptions.output = none ∧
    ∃ code, Overwrites lostOptions lostFiles (.ofInput []) code ∧
      (compile lostOptions lostFiles (.ofInput [])).files.read "prog.tm" =
        .ok (listingText "prog.tm" code).toUTF8 := by
  obtain ⟨code, hcode⟩ :=
    (source_changed_iff lostOptions lostFiles (.ofInput []) rfl).1.mp read_lost_ne
  exact ⟨rfl, code, hcode, (source_changed_iff lostOptions lostFiles (.ofInput []) rfl).2
    code hcode⟩

/-- It is not so that a source is always read back as it was. -/
theorem source_not_always_kept : ¬ ∀ (o : Options) (files : FileSystem) (stdin : List UInt8),
    o.output = none →
      (compile o files (.ofInput stdin)).files.read o.source = files.read o.source := by
  intro h
  exact read_lost_ne (h lostOptions lostFiles [] rfl)

-- The extension alone counts; a dot before it that is the whole stem does not make one.
example : withExtension "a.b/prog.cm" "tm" = "a.b/prog.tm" ∧
    withExtension "prog.tm" "tm" = "prog.tm" ∧ withExtension ".tm" "tm" = ".tm.tm" := by
  decide

end MiniC
