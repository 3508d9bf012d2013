import Mathlib.Data.List.TakeWhile
import MiniC.Command.Files
import MiniC.Proofs.Emission

/-!
# Files

A path that can be read or written leads somewhere: its components but the last are walked to a
directory, and the last one is the name of a file in it. Writing such a file makes no directory and
takes none away, so every other path leads where it led before, and a file is read as it was unless
the one written is the same.

* `FileSystem.LeadsTo`: what a path comes to
* `FileSystem.eq_put_of_write`: a write changes the place that its path names
* `FileSystem.LeadsTo.read_put`: reading after writing
* `FileSystem.LeadsTo.child_eq_iff`: which paths stay as they are when the extension is replaced
-/

namespace MiniC

/-- What fails has no answer. -/
theorem Except.throw_eq_ok_iff {ε α : Type} {e : ε} {a : α} :
    (throw e : Except ε α) = .ok a ↔ False := by
  simp [throw, throwThe, MonadExceptOf.throw]

namespace Text

/-- There is at least one part. -/
theorem split_ne_nil (sep : Char) (text : List Char) : split sep text ≠ [] := by
  fun_induction split sep text <;> simp

/-- A text without the separator is its one part. -/
theorem split_of_notMem {sep : Char} {text : List Char} (h : sep ∉ text) :
    split sep text = [text] := by
  induction text with
  | nil => rfl
  | cons c rest ih =>
    rw [List.mem_cons, not_or] at h
    rw [split, if_neg (Ne.symm h.1), ih h.2]

/-- A separator divides the parts of what is before it from those of what is behind it. -/
theorem split_append (sep : Char) (text rest : List Char) :
    split sep (text ++ sep :: rest) = split sep text ++ split sep rest := by
  induction text with
  | nil => simp [split]
  | cons c text ih =>
    rw [List.cons_append, split, split, ih]
    by_cases hc : c = sep
    · simp [hc]
    · rw [if_neg hc, if_neg hc]
      cases hpieces : split sep text with
      | nil => exact absurd hpieces (split_ne_nil sep text)
      | cons piece pieces => rfl

end Text

/-! ### The last component of a path

Replacing an extension changes the last component of a path and nothing else, so paths are divided
there. What an extension is follows the name from its last dot on, except that a name cannot start
with it. -/

/-- A path is a directory part, which is empty or ends in a separator, and a last component. -/
structure Divided (path : String) (directory name : List Char) : Prop where
  text : path.toList = directory ++ name
  directory : directory = [] ∨ ∃ before, directory = before ++ ['/']
  name : '/' ∉ name

/-- Paths in the same directory part differ in the last component alone. -/
theorem exists_ofText_eq {directory : List Char}
    (h : directory = [] ∨ ∃ before, directory = before ++ ['/']) :
    ∃ start before, ∀ path name, Divided path directory name →
      PathName.ofText path = ⟨start, before ++ [String.ofList name]⟩ := by
  rcases h with rfl | ⟨before, rfl⟩
  · refine ⟨.working, [], fun path name hpath => ?_⟩
    rw [PathName.ofText, hpath.text, List.nil_append, Text.split_of_notMem hpath.name]
    split
    · rename_i heq
      exact absurd (congrArg List.length heq) (by simp)
    · rfl
  · have hsplit : ∀ path name, Divided path (before ++ ['/']) name →
        (Text.split '/' path.toList).map String.ofList =
          (Text.split '/' before).map String.ofList ++ [String.ofList name] := by
      intro path name hpath
      rw [hpath.text, List.append_assoc, List.cons_append, List.nil_append, Text.split_append,
        Text.split_of_notMem hpath.name, List.map_append, List.map_cons, List.map_nil]
    cases hbefore : (Text.split '/' before).map String.ofList with
    | nil => exact absurd (List.map_eq_nil_iff.mp hbefore) (Text.split_ne_nil '/' before)
    | cons first rest =>
      simp only [hbefore] at hsplit
      -- a path that begins with a separator begins at the root
      by_cases hfirst : first = ""
      · refine ⟨⟨.root, []⟩, rest, fun path name hpath => ?_⟩
        rw [PathName.ofText, hsplit path name hpath, hfirst]
        cases rest <;> rfl
      · refine ⟨.working, first :: rest, fun path name hpath => ?_⟩
        rw [PathName.ofText, hsplit path name hpath]
        split
        · rename_i heq
          exact absurd (List.cons.inj heq).1 hfirst
        · rfl

/-- What stands before the last dot of a name. -/
def stemOf (name : List Char) : List Char :=
  ((name.reverse.dropWhile (· ≠ '.')).drop 1).reverse

/-- A character that is not in a text is none of its characters, from behind. -/
theorem forall_ne_of_notMem {c : Char} {text : List Char} (h : c ∉ text) :
    ∀ d ∈ text.reverse, decide (d ≠ c) = true := by
  rintro d hd
  simp only [decide_eq_true_eq]
  rintro rfl
  exact h (List.mem_reverse.mp hd)

/-- A name without a dot has no stem. -/
theorem stemOf_of_notMem {name : List Char} (h : '.' ∉ name) : stemOf name = [] := by
  have hdrop : name.reverse.dropWhile (· ≠ '.') = [] :=
    List.dropWhile_eq_nil_iff.mpr (forall_ne_of_notMem h)
  simp only [stemOf, hdrop, List.drop_nil, List.reverse_nil]

/-- The stem ends at the last dot. -/
theorem stemOf_append {stem extension : List Char} (h : '.' ∉ extension) :
    stemOf (stem ++ '.' :: extension) = stem := by
  have hreverse : (stem ++ '.' :: extension).reverse =
      extension.reverse ++ '.' :: stem.reverse := by
    simp
  rw [stemOf, hreverse, List.dropWhile_append_of_pos (forall_ne_of_notMem h),
    List.dropWhile_cons_of_neg (by simp), List.drop_one, List.tail_cons, List.reverse_reverse]

/-- The last component with its extension replaced. -/
def renamed (name extension : List Char) : List Char :=
  let stem := stemOf name
  let rest := if stem.isEmpty then name else stem ++ ['.']
  if isFileName rest then (if stem.isEmpty then name else stem) ++ '.' :: extension else rest

/-- A name that has no stem gets the extension behind it. -/
theorem renamed_of_stemOf_nil {name : List Char} (hstem : stemOf name = [])
    (hname : isFileName name = true) (extension : List Char) :
    renamed name extension = name ++ '.' :: extension := by
  simp [renamed, hstem, hname]

/-- A name with a stem keeps it. If the stem is a dot, the name becomes that of the parent
directory. -/
theorem renamed_append {stem old : List Char} (hold : '.' ∉ old) (hstem : stem ≠ [])
    (extension : List Char) : renamed (stem ++ '.' :: old) extension =
      if stem = ['.'] then ['.', '.'] else stem ++ '.' :: extension := by
  have hempty : stem.isEmpty = false := List.isEmpty_eq_false_iff.mpr hstem
  simp only [renamed, stemOf_append hold, hempty, Bool.false_eq_true, if_false]
  by_cases hdot : stem = ['.']
  · rw [if_pos hdot, hdot]
    rfl
  · have hname : isFileName (stem ++ ['.']) = true := by
      simp [isFileName, hstem, hdot, List.append_eq_cons_iff]
    rw [if_neg hdot, if_pos hname]

/-- The name of a file that stays as it is. -/
theorem renamed_eq_iff {name extension : List Char} (hname : isFileName name = true)
    (hdot : '.' ∉ extension) : renamed name extension = name ↔
      ∃ stem, name = stem ++ '.' :: extension ∧ stem ≠ [] ∧ stem ≠ ['.'] := by
  constructor
  · intro heq
    by_cases hstem : stemOf name = []
    · rw [renamed_of_stemOf_nil hstem hname] at heq
      exact absurd (congrArg List.length heq) (by simp)
    · have hmem : '.' ∈ name.reverse := by
        rw [List.mem_reverse]
        by_contra hnot
        exact hstem (stemOf_of_notMem hnot)
      obtain ⟨old, stem, hreverse, hold⟩ := List.eq_append_cons_of_mem hmem
      obtain rfl : name = stem.reverse ++ '.' :: old.reverse := by
        rw [← List.reverse_reverse name, hreverse]
        simp
      have hold' : '.' ∉ old.reverse := by rwa [List.mem_reverse]
      rw [stemOf_append hold'] at hstem
      rw [renamed_append hold' hstem] at heq
      split_ifs at heq with hlone
      · rw [hlone] at heq
        simp only [List.cons_append, List.nil_append, List.cons.injEq, true_and,
          List.nil_eq] at heq
        rw [hlone, heq] at hname
        exact absurd hname (by decide)
      · exact ⟨stem.reverse, heq.symm, hstem, hlone⟩
  · rintro ⟨stem, rfl, hstem, hlone⟩
    rw [renamed_append hdot hstem, if_neg hlone]

/-- The last component is what stands behind the last separator. -/
theorem Divided.takeWhile_eq {path : String} {directory name : List Char}
    (h : Divided path directory name) :
    (path.toList.reverse.takeWhile (· ≠ '/')).reverse = name := by
  have hend : directory.reverse.takeWhile (· ≠ '/') = [] := by
    rcases h.directory with rfl | ⟨before, rfl⟩ <;> simp
  rw [h.text, List.reverse_append, List.takeWhile_append_of_pos (forall_ne_of_notMem h.name), hend,
    List.append_nil, List.reverse_reverse]

/-- A path is divided in one way. -/
theorem Divided.unique {path : String} {directory directory' name name' : List Char}
    (h : Divided path directory name) (h' : Divided path directory' name') :
    directory = directory' ∧ name = name' := by
  obtain rfl : name = name' := h.takeWhile_eq.symm.trans h'.takeWhile_eq
  exact ⟨List.append_cancel_right (h.text.symm.trans h'.text), rfl⟩

/-- Every path is divided. -/
theorem exists_divided (path : String) : ∃ directory name, Divided path directory name := by
  by_cases hslash : '/' ∈ path.toList.reverse
  · obtain ⟨name, before, hreverse, hname⟩ := List.eq_append_cons_of_mem hslash
    refine ⟨before.reverse ++ ['/'], name.reverse, ?_, .inr ⟨_, rfl⟩, by rwa [List.mem_reverse]⟩
    rw [← List.reverse_reverse path.toList, hreverse]
    simp
  · exact ⟨[], path.toList, rfl, .inl rfl, by rwa [List.mem_reverse] at hslash⟩

/-- The text of a path whose extension is replaced. -/
theorem Divided.toList_withExtension {path : String} {directory name : List Char}
    (h : Divided path directory name) (extension : String) :
    (withExtension path extension).toList = directory ++ renamed name extension.toList := by
  have hdirectory : path.toList.take (path.toList.length - name.length) = directory := by
    rw [h.text, List.length_append, Nat.add_sub_cancel, List.take_left]
  unfold withExtension
  simp only [h.takeWhile_eq, hdirectory]
  unfold renamed stemOf
  dsimp only
  split_ifs <;> simp [*]

/-- Replacing an extension makes no separator. -/
theorem slash_notMem_renamed {name extension : List Char} (hname : '/' ∉ name)
    (hextension : '/' ∉ extension) : '/' ∉ renamed name extension := by
  have hstem : '/' ∉ stemOf name := by
    intro hmem
    have hdrop := List.mem_of_mem_drop (List.mem_reverse.mp hmem)
    exact hname (List.mem_reverse.mp ((List.dropWhile_sublist _).subset hdrop))
  unfold renamed
  dsimp only
  split_ifs <;> simp [*]

/-- An extension replaces the end of the last component, and nothing before that component. -/
theorem Divided.withExtension {path : String} {directory name : List Char}
    (h : Divided path directory name) {extension : String} (hslash : '/' ∉ extension.toList) :
    Divided (withExtension path extension) directory (renamed name extension.toList) :=
  ⟨h.toList_withExtension extension, h.directory, slash_notMem_renamed h.name hslash⟩

/-- The last component of a path is a stem, a dot and the extension. A stem that is a dot does not
count: without the extension, such a component names no file. -/
def HasExtension (path extension : String) : Prop :=
  ∃ directory stem, Divided path directory (stem ++ '.' :: extension.toList) ∧
    stem ≠ [] ∧ stem ≠ ['.']

/-- A path stays as it is exactly if it has the extension. -/
theorem Divided.renamed_eq_iff {path extension : String} {directory name : List Char}
    (h : Divided path directory name) (hname : isFileName name = true)
    (hdot : '.' ∉ extension.toList) :
    renamed name extension.toList = name ↔ HasExtension path extension := by
  rw [MiniC.renamed_eq_iff hname hdot]
  constructor
  · rintro ⟨stem, rfl, hstem, hlone⟩
    exact ⟨directory, stem, h, hstem, hlone⟩
  · rintro ⟨directory', stem, h', hstem, hlone⟩
    exact ⟨stem, (h.unique h').2, hstem, hlone⟩

/-! ### Directories

There is no record of directories: one is where a file is below it. So writing a file into a
directory makes no new one, and replacing a file takes none away. -/

/-- Places in directories are the same if the directories and the names are. -/
theorem Location.child_inj {l l' : Location} {name name' : String} :
    l.child name = l'.child name' ↔ l = l' ∧ name = name' := by
  obtain ⟨anchor, names⟩ := l
  obtain ⟨anchor', names'⟩ := l'
  simp only [child, mk.injEq]
  constructor
  · rintro ⟨rfl, hnames⟩
    obtain ⟨rfl, hname⟩ := List.append_inj' hnames rfl
    exact ⟨⟨rfl, rfl⟩, by simpa using hname⟩
  · rintro ⟨⟨rfl, rfl⟩, rfl⟩
    exact ⟨rfl, rfl⟩

/-- A name of a file is not empty and none of the two that stand for directories. -/
theorem isFileName_iff {name : String} :
    isFileName name.toList = true ↔ name ≠ "" ∧ name ≠ "." ∧ name ≠ ".." := by
  simp only [isFileName, decide_eq_true_eq, List.mem_cons, List.not_mem_nil, or_false,
    String.toList_inj, not_or]

/-- A name of a file leads into the directory. -/
theorem Location.follow_of_isFileName {l : Location} {name : String}
    (h : isFileName name.toList = true) : l.follow name = l.child name := by
  obtain ⟨hempty, hdot, hdots⟩ := isFileName_iff.mp h
  unfold follow
  split <;> simp_all

namespace FileSystem

variable {fs : FileSystem} {l l' : Location} {path path' name name' : String}

/-- A directory is a root, or is on the way to a file. -/
theorem isDirectory_iff : fs.isDirectory l = true ↔ l.names = [] ∨
    ∃ f ∈ fs.files, f.1.anchor = l.anchor ∧ f.1.names ≠ l.names ∧ l.names <+: f.1.names := by
  simp [isDirectory, and_assoc]

/-- Only a directory goes through. -/
theorem requireDirectory_eq_ok_iff {u : Unit} :
    fs.requireDirectory l = .ok u ↔ fs.isDirectory l = true := by
  unfold requireDirectory
  split_ifs <;> simp [*]

/-- What is below a directory makes every place on the way to it a directory. -/
theorem isDirectory_of_prefix (h : fs.isDirectory l = true) (hanchor : l'.anchor = l.anchor)
    (hnames : l'.names <+: l.names) : fs.isDirectory l' = true := by
  rw [isDirectory_iff] at h ⊢
  rcases h with hnil | ⟨f, hf, hf', hne, hbelow⟩
  · exact .inl (List.prefix_nil.mp (hnil ▸ hnames))
  · refine .inr ⟨f, hf, hf'.trans hanchor.symm, fun heq => hne ?_, hnames.trans hbelow⟩
    exact (heq ▸ hnames).eq_of_length_le hbelow.length_le

/-- A directory is in a directory. -/
theorem isDirectory_parent (h : fs.isDirectory l = true) : fs.isDirectory l.parent = true := by
  unfold Location.parent
  split
  · simp [isDirectory]
  · exact h
  · exact isDirectory_of_prefix h rfl (List.dropLast_prefix _)

/-- From a directory, only a name leads to something else. -/
theorem isFileName_of_follow (h : fs.isDirectory l = true)
    (hfollow : fs.isDirectory (l.follow name) = false) : isFileName name.toList = true := by
  unfold Location.follow at hfollow
  split at hfollow
  · exact absurd (h.symm.trans hfollow) (by decide)
  · exact absurd (h.symm.trans hfollow) (by decide)
  · exact absurd ((isDirectory_parent h).symm.trans hfollow) (by decide)
  · rename_i hempty hdot hdots
    exact isFileName_iff.mpr ⟨hempty, hdot, hdots⟩

/-- A file in a directory makes no other place a directory, and replacing it takes none away. -/
theorem isDirectory_put (h : fs.isDirectory l = true) (name : String) (content : ByteArray)
    (l' : Location) : (fs.put (l.child name) content).isDirectory l' = fs.isDirectory l' := by
  rw [Bool.eq_iff_iff]
  constructor
  · intro h'
    rcases isDirectory_iff.mp h' with hnil | ⟨f, hf, hanchor, hne, hbelow⟩
    · exact isDirectory_iff.mpr (.inl hnil)
    · rcases List.mem_cons.mp hf with rfl | hf
      · -- what the new file is below, its directory is below or is
        have hbelow' : l'.names <+: l.names := by
          rcases List.prefix_concat_iff.mp hbelow with heq | hbelow'
          · exact absurd heq.symm hne
          · exact hbelow'
        exact isDirectory_of_prefix h hanchor.symm hbelow'
      · exact isDirectory_iff.mpr
          (.inr ⟨f, (List.mem_filter.mp hf).1, hanchor, hne, hbelow⟩)
  · intro h'
    rcases isDirectory_iff.mp h' with hnil | ⟨f, hf, hanchor, hne, hbelow⟩
    · exact isDirectory_iff.mpr (.inl hnil)
    · by_cases hplace : f.1 = l.child name
      · exact isDirectory_iff.mpr (.inr ⟨(l.child name, content), List.mem_cons_self,
          hplace ▸ hanchor, hplace ▸ hne, hplace ▸ hbelow⟩)
      · exact isDirectory_iff.mpr (.inr ⟨f, List.mem_cons_of_mem _
          (List.mem_filter.mpr ⟨hf, by simpa using hplace⟩), hanchor, hne, hbelow⟩)

/-! ### Contents

A place holds what was put there last. -/

/-- Taking one place out leaves the others. -/
theorem lookup_filter_ne (files : List (Location × ByteArray)) {l l' : Location} (h : l' ≠ l) :
    (files.filter fun f => f.1 ≠ l).lookup l' = files.lookup l' := by
  induction files with
  | nil => rfl
  | cons f files ih =>
    obtain ⟨place, content⟩ := f
    by_cases hplace : place = l
    · have hne : (l' == l) = false := beq_eq_false_iff_ne.mpr h
      simp only [List.filter_cons, hplace, ne_eq, not_true_eq_false, decide_false,
        Bool.false_eq_true, if_false, List.lookup_cons, hne, ih]
    · simp only [List.filter_cons, ne_eq, hplace, not_false_eq_true, decide_true, if_true,
        List.lookup_cons, ih]

/-- A file that is put somewhere is found there, and all others where they were. -/
theorem file?_put (fs : FileSystem) (l l' : Location) (content : ByteArray) :
    (fs.put l content).file? l' = if l' = l then some content else fs.file? l' := by
  by_cases h : l' = l
  · simp only [file?, put, List.lookup_cons, h, beq_self_eq_true, if_pos]
  · have hne : (l' == l) = false := beq_eq_false_iff_ne.mpr h
    simp only [file?, put, List.lookup_cons, hne, if_neg h, lookup_filter_ne fs.files h]

/-! ### Walks

A walk goes through directories only, and never looks at contents. -/

/-- A walk that comes to an end comes to the place that its components name. -/
theorem eq_foldl_of_walk {fs : FileSystem} {l l' : Location} {components : List String}
    (h : fs.walk l components = .ok l') : l' = components.foldl Location.follow l := by
  induction components generalizing l with
  | nil => cases h; rfl
  | cons component rest ih =>
    simp only [walk, Except.bind_eq_ok_iff] at h
    obtain ⟨-, -, -, -, hrest⟩ := h
    exact ih hrest

/-- A walk in two parts. -/
theorem walk_append (start : Location) (before rest : List String) :
    fs.walk start (before ++ rest) = (do
      let l ← fs.walk start before
      fs.walk l rest) := by
  induction before generalizing start with
  | nil => rfl
  | cons component before ih =>
    simp only [List.cons_append, walk, ih, bind_assoc]

/-- A walk that comes to an end does so again with a file put in a directory. -/
theorem walk_put (h : fs.isDirectory l = true) (name : String) (content : ByteArray)
    {start : Location} {components : List String} (hwalk : fs.walk start components = .ok l') :
    (fs.put (l.child name) content).walk start components = .ok l' := by
  induction components generalizing start with
  | nil => exact hwalk
  | cons component rest ih =>
    simp only [walk, Except.bind_eq_ok_iff] at hwalk ⊢
    obtain ⟨u, hdirectory, v, hshort, hrest⟩ := hwalk
    rw [requireDirectory_eq_ok_iff] at hdirectory
    refine ⟨u, ?_, v, hshort, ih hrest⟩
    rw [requireDirectory_eq_ok_iff, isDirectory_put h, hdirectory]

/-- A path leads to a name in a directory. -/
structure LeadsTo (fs : FileSystem) (path : String) (l : Location) (name : String) : Prop where
  readable : PathName.read path = .ok (.ofText path)
  walked : ∃ before, (PathName.ofText path).components = before ++ [name] ∧
    fs.walk (PathName.ofText path).start before = .ok l
  directory : fs.isDirectory l = true
  short : requireShort name = .ok ()
  named : isFileName name.toList = true
  file : fs.isDirectory (l.child name) = false

/-- A path that can be used is the one that its text says. -/
theorem read_ofText {p : PathName} (h : PathName.read path = .ok p) : p = .ofText path := by
  unfold PathName.read at h
  split_ifs at h
  exact (Except.ok.inj h).symm

/-- Without empty components behind it, the last component is the last one that is not empty. -/
theorem eq_append_of_splitLast {components before : List String} {last : String}
    (h : splitLast components = some (before, last, false)) :
    components = before ++ [last] ∧ last ≠ "" := by
  unfold splitLast at h
  split at h
  · cases h
  · rename_i last' before' hdrop
    simp only [Option.some.injEq, Prod.mk.injEq] at h
    obtain ⟨rfl, rfl, hslash⟩ := h
    have hlast : last' ≠ "" := by
      have hhead := List.head?_dropWhile_not (fun c : String => decide (c = "")) components.reverse
      simpa [hdrop] using hhead
    refine ⟨?_, hlast⟩
    cases hrev : components.reverse with
    | nil => rw [hrev] at hdrop; cases hdrop
    | cons c rest =>
      have hc : c ≠ "" := by
        have hget : components.getLast? = some c := by
          rw [List.getLast?_eq_head?_reverse, hrev, List.head?_cons]
        simpa [hget] using hslash
      rw [hrev, List.dropWhile_cons_of_neg (by simpa using hc)] at hdrop
      have heq := congrArg List.reverse (hrev.trans hdrop)
      simpa using heq

/-- A last component that is not empty is split off. -/
theorem splitLast_concat {before : List String} (h : name ≠ "") :
    splitLast (before ++ [name]) = some (before, name, false) := by
  simp [splitLast, h]

/-- What is read is the file at the place that the path leads to. -/
theorem LeadsTo.read_eq_ok_iff (h : fs.LeadsTo path l name) {content : ByteArray} :
    fs.read path = .ok content ↔ fs.file? (l.child name) = some content := by
  obtain ⟨before, hcomponents, hwalk⟩ := h.walked
  have hend : fs.walk (PathName.ofText path).start (PathName.ofText path).components =
      .ok (l.child name) := by
    rw [hcomponents, walk_append, Except.bind_eq_ok_iff]
    refine ⟨l, hwalk, ?_⟩
    simp only [walk, Except.bind_eq_ok_iff]
    exact ⟨(), requireDirectory_eq_ok_iff.mpr h.directory, (), h.short,
      congrArg Except.ok (Location.follow_of_isFileName h.named)⟩
  rw [read, h.readable]
  simp only [Except.bind_eq_ok_iff, Except.ok.injEq, exists_eq_left', hend, h.file,
    Bool.false_eq_true, if_false]
  cases fs.file? (l.child name) <;> simp [Except.throw_eq_ok_iff, Except.pure_eq_ok_iff]

/-- A path that can be read leads somewhere. -/
theorem exists_leadsTo_of_read {content : ByteArray} (h : fs.read path = .ok content) :
    ∃ l name, fs.LeadsTo path l name := by
  simp only [read, Except.bind_eq_ok_iff] at h
  obtain ⟨p, hp, place, hwalk, h⟩ := h
  obtain rfl := read_ofText hp
  by_cases hdirectory : fs.isDirectory place = true
  · simp [hdirectory, Except.bind_eq_ok_iff, Except.throw_eq_ok_iff] at h
  rw [Bool.not_eq_true] at hdirectory
  obtain ⟨directory, last, hpath⟩ := exists_divided path
  obtain ⟨start, before, hofText⟩ := exists_ofText_eq hpath.directory
  have hcomponents : (PathName.ofText path).components = before ++ [String.ofList last] := by
    rw [hofText _ _ hpath]
  rw [hcomponents, walk_append, Except.bind_eq_ok_iff] at hwalk
  obtain ⟨l, hbefore, hlast⟩ := hwalk
  simp only [walk, Except.bind_eq_ok_iff, Except.ok.injEq] at hlast
  obtain ⟨u, hl, v, hshort, rfl⟩ := hlast
  rw [requireDirectory_eq_ok_iff] at hl
  have hnamed := isFileName_of_follow hl hdirectory
  rw [Location.follow_of_isFileName hnamed] at hdirectory
  exact ⟨l, String.ofList last, hp, ⟨before, hcomponents, hbefore⟩, hl, hshort, hnamed, hdirectory⟩

/-- A path that leads somewhere can be written. -/
theorem LeadsTo.write_eq (h : fs.LeadsTo path l name) (content : ByteArray) :
    fs.write path content = .ok (fs.put (l.child name) content) := by
  obtain ⟨before, hcomponents, hwalk⟩ := h.walked
  obtain ⟨hempty, hdot, hdots⟩ := isFileName_iff.mp h.named
  simp only [write, Except.bind_eq_ok_iff]
  refine ⟨_, h.readable, ?_⟩
  simp only [hcomponents, splitLast_concat hempty, Except.bind_eq_ok_iff]
  refine ⟨l, hwalk, (), requireDirectory_eq_ok_iff.mpr h.directory, ?_⟩
  simp only [hdot, hdots, h.file, decide_false, Bool.or_self, Bool.false_eq_true, if_false,
    Except.bind_eq_ok_iff, Except.pure_eq_ok_iff]
  exact ⟨(), h.short, trivial⟩

/-- A path that can be written leads somewhere, and the file is put there. -/
theorem exists_leadsTo_of_write {fs' : FileSystem} {content : ByteArray}
    (h : fs.write path content = .ok fs') :
    ∃ l name, fs.LeadsTo path l name ∧ fs' = fs.put (l.child name) content := by
  simp only [write, Except.bind_eq_ok_iff] at h
  obtain ⟨p, hp, h⟩ := h
  obtain rfl := read_ofText hp
  cases hsplit : splitLast (PathName.ofText path).components with
  | none => simp only [hsplit, Except.throw_eq_ok_iff] at h
  | some parts =>
    obtain ⟨before, last, slash⟩ := parts
    simp only [hsplit, Except.bind_eq_ok_iff] at h
    obtain ⟨l, hwalk, u, hl, h⟩ := h
    -- Only the branch without a refusal ends in a file system.
    split_ifs at h <;>
      simp only [Except.bind_eq_ok_iff, Except.throw_eq_ok_iff, Except.pure_eq_ok_iff, false_and,
        and_false, exists_false] at h
    rename_i hname hfile
    obtain ⟨v, hshort, rfl⟩ := h
    simp only [Bool.or_eq_true, decide_eq_true_eq, not_or, Bool.not_eq_true] at hname hfile
    obtain ⟨⟨rfl, hdot⟩, hdots⟩ := hname
    obtain ⟨hcomponents, hempty⟩ := eq_append_of_splitLast hsplit
    exact ⟨l, last, ⟨hp, ⟨before, hcomponents, hwalk⟩, requireDirectory_eq_ok_iff.mp hl, hshort,
      isFileName_iff.mpr ⟨hempty, hdot, hdots⟩, hfile⟩, rfl⟩

/-- A path leads to the place that its components name. -/
theorem LeadsTo.location_eq (h : fs.LeadsTo path l name) :
    (PathName.ofText path).location = l.child name := by
  obtain ⟨before, hcomponents, hwalk⟩ := h.walked
  rw [PathName.location, hcomponents, List.foldl_append, ← eq_foldl_of_walk hwalk, List.foldl_cons,
    List.foldl_nil, Location.follow_of_isFileName h.named]

/-- A write that goes through gives the place that its path names the new content. -/
theorem eq_put_of_write {fs' : FileSystem} {content : ByteArray}
    (h : fs.write path content = .ok fs') :
    fs' = fs.put (PathName.ofText path).location content := by
  obtain ⟨l, name, hpath, rfl⟩ := exists_leadsTo_of_write h
  rw [hpath.location_eq]

/-- With a file put in a directory, a path leads where it led before. -/
theorem LeadsTo.put (h : fs.LeadsTo path l name) (hl' : fs.isDirectory l' = true) (name' : String)
    (content : ByteArray) : (fs.put (l'.child name') content).LeadsTo path l name := by
  obtain ⟨before, hcomponents, hwalk⟩ := h.walked
  constructor
  case readable => exact h.readable
  case walked => exact ⟨before, hcomponents, walk_put hl' name' content hwalk⟩
  case directory => rw [isDirectory_put hl', h.directory]
  case short => exact h.short
  case named => exact h.named
  case file => rw [isDirectory_put hl', h.file]

/-- What is read after a write: the new content at the place written, and the old one elsewhere. -/
theorem LeadsTo.read_put (h : fs.LeadsTo path l name) (h' : fs.LeadsTo path' l' name')
    {content old : ByteArray} (hread : fs.read path = .ok old) :
    (fs.put (l'.child name') content).read path =
      .ok (if l.child name = l'.child name' then content else old) := by
  rw [(h.put h'.directory name' content).read_eq_ok_iff, file?_put]
  split_ifs
  · rfl
  · exact h.read_eq_ok_iff.mp hread

/-! ### Paths in one directory part

Two paths that differ in the last component lead to the same directory, if they lead anywhere. -/

/-- Paths in the same directory part lead to the same directory, each with its last component. -/
theorem LeadsTo.eq_of_divided (h : fs.LeadsTo path l name) (h' : fs.LeadsTo path' l' name')
    {directory last last' : List Char} (hpath : Divided path directory last)
    (hpath' : Divided path' directory last') :
    l = l' ∧ name.toList = last ∧ name'.toList = last' := by
  obtain ⟨start, before, hofText⟩ := exists_ofText_eq hpath.directory
  obtain ⟨walked, hcomponents, hwalk⟩ := h.walked
  obtain ⟨walked', hcomponents', hwalk'⟩ := h'.walked
  rw [hofText _ _ hpath] at hcomponents hwalk
  rw [hofText _ _ hpath'] at hcomponents' hwalk'
  obtain ⟨rfl, hname⟩ := List.append_inj' hcomponents rfl
  obtain ⟨rfl, hname'⟩ := List.append_inj' hcomponents' rfl
  refine ⟨Except.ok.inj (hwalk.symm.trans hwalk'), ?_, ?_⟩
  · rw [← (List.cons.inj hname).1, String.toList_ofList]
  · rw [← (List.cons.inj hname').1, String.toList_ofList]

/-- Replacing the extension leads to the same place exactly if the extension is there already. -/
theorem LeadsTo.child_eq_iff {extension : String} (h : fs.LeadsTo path l name)
    (h' : fs.LeadsTo (withExtension path extension) l' name')
    (hslash : '/' ∉ extension.toList) (hdot : '.' ∉ extension.toList) :
    l.child name = l'.child name' ↔ HasExtension path extension := by
  obtain ⟨directory, last, hpath⟩ := exists_divided path
  obtain ⟨rfl, rfl, hname'⟩ := h.eq_of_divided h' hpath (hpath.withExtension hslash)
  rw [Location.child_inj, ← hpath.renamed_eq_iff h.named hdot, ← hname', String.toList_inj]
  simp [eq_comm]

/-- A path with the extension already is not changed. -/
theorem LeadsTo.withExtension_eq {extension : String} (h : fs.LeadsTo path l name)
    (hdot : '.' ∉ extension.toList) (hextension : HasExtension path extension) :
    withExtension path extension = path := by
  obtain ⟨directory, last, hpath⟩ := exists_divided path
  obtain ⟨-, rfl, -⟩ := h.eq_of_divided h hpath hpath
  rw [← String.toList_inj, hpath.toList_withExtension,
    (hpath.renamed_eq_iff h.named hdot).mpr hextension, hpath.text]

end FileSystem

end MiniC
