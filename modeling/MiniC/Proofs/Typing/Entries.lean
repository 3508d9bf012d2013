import MiniC.Proofs.Bindings
import MiniC.Proofs.Typing.Programs

/-!
# The entries of a scope

The declarations of a scope, each as the scope sees it, and what becomes of them: a declaration is
accepted if it is compatible with those accepted before it, and a name has the place of its first
accepted declaration. What stands there in the end is that declaration, or the one with a body if
there is one. A frame of the analysis shows just this.

* `Entry`, `Entry.accepted`, `Entry.rejected`: which declarations a scope accepts
* `Entry.shown`: what the scope shows of them
* `Entry.nodup_shown`, `Entry.mem_of_mem_shown`, `Entry.existsUnique_shown`: one entry for each name
* `Frame.Shows`: a frame whose symbols have the lines of these entries, in this order
* `Frame.Shows.declare`, `Frame.Shows.redefine`, `Frame.Shows.again`: one more accepted entry
-/

namespace MiniC

/-! ### Declarations that fit together

A scope takes one variable or function of a name, and any number of declarations of a function as
long as they agree and at most one of them has a body. `Header.Compatible` says this of two
declarations, and `Fits` of a declaration and the scope it comes to. -/

/-- Whether a name stands for a function. -/
def Entity.isFunction : Entity → Bool
  | .var _ => false
  | .function _ _ => true

/-- What is no variable has a result and parameters. -/
theorem Entity.isFunction_iff {e : Entity} :
    e.isFunction = true ↔ ∃ result params, e = .function result params := by
  cases e <;> simp [isFunction]

instance (a b : Header) : Decidable (a.Compatible b) :=
  decidable_of_iff (a.name = b.name → a.entity = b.entity ∧ a.entity.isFunction = true ∧
    ¬(a.hasBody = true ∧ b.hasBody = true)) (by rw [Header.Compatible, Entity.isFunction_iff])

/-- A declaration, as the scope around it sees it. -/
structure Entry where
  header : Header
  /-- Its line in a dump. -/
  line : String
  /-- What is reported if it is rejected. The routines are not declared anywhere. -/
  refusal : Option Diagnostic

namespace Entry

/-- The name that is declared. -/
def name (e : Entry) : String :=
  e.header.name

/-- A scope that has accepted some entries takes another one. -/
def Fits (es : List Entry) (e : Entry) : Prop :=
  ∀ d ∈ es, d.header.Compatible e.header

instance (es : List Entry) (e : Entry) : Decidable (Fits es e) :=
  inferInstanceAs (Decidable (∀ d ∈ es, d.header.Compatible e.header))

/-- A declaration fits if it is compatible with each of the accepted ones. -/
theorem fits_iff {es : List Entry} {e : Entry} :
    Fits es e ↔ ∀ a ∈ es.map header, a.Compatible e.header := by
  rw [List.forall_mem_map]
  rfl

/-- The entries that a scope has accepted after some more were declared in it. -/
def accepted (es : List Entry) : List Entry → List Entry
  | [] => es
  | e :: rest => if Fits es e then accepted (es ++ [e]) rest else accepted es rest

/-- The others of these entries. -/
def rejected (es : List Entry) : List Entry → List Entry
  | [] => []
  | e :: rest => if Fits es e then rejected (es ++ [e]) rest else e :: rejected es rest

/-- The first entry of each name. -/
def firsts : List Entry → List Entry
  | [] => []
  | e :: rest => e :: (firsts rest).filter fun d => d.name ≠ e.name

/-- An entry, or the one with a body that completes it. -/
def completed (es : List Entry) (e : Entry) : Entry :=
  (es.find? fun d => d.name = e.name && d.header.hasBody).getD e

/-- What a scope shows of the entries it has accepted: one for each name, in the place of the first,
and completed. -/
def shown (es : List Entry) : List Entry :=
  (firsts es).map (completed es)

/-! ### One entry for each name

What a scope shows is read off the accepted entries. The list `firsts` fixes the order, and
`completed` what is shown in each place. -/

variable {es : List Entry} {d e : Entry}

/-- Completing an entry does not change its name, because the search is for an entry of that name.
-/
@[simp] theorem name_completed : (completed es e).name = e.name := by
  unfold completed
  cases h : es.find? fun d => d.name = e.name && d.header.hasBody with
  | none => rfl
  | some d =>
    have hd := List.find?_some h
    simp only [Bool.and_eq_true, decide_eq_true_eq] at hd
    exact hd.1

/-- The names that are shown are those of the first entries. -/
theorem map_name_shown : (shown es).map name = (firsts es).map name := by
  simp [shown, Function.comp_def]

/-- The first entries stand in the order in which they were declared. -/
theorem firsts_sublist (es : List Entry) : (firsts es).Sublist es := by
  induction es with
  | nil => exact .slnil
  | cons e rest ih => exact (List.filter_sublist.trans ih).cons_cons e

/-- Every name has a first entry. By induction on the entries: behind an entry only those of its
name are dropped. -/
theorem mem_names_firsts {x : String} : x ∈ (firsts es).map name ↔ x ∈ es.map name := by
  induction es with
  | nil => rfl
  | cons e rest ih =>
    rw [List.map_cons, List.mem_cons, ← ih, firsts, List.map_cons, List.mem_cons]
    by_cases hx : x = e.name
    · simp [hx]
    · simp only [hx, false_or, List.mem_map, List.mem_filter, decide_eq_true_eq, ne_eq]
      refine exists_congr fun d => ⟨fun ⟨⟨hd, _⟩, hname⟩ => ⟨hd, hname⟩, fun ⟨hd, hname⟩ => ?_⟩
      exact ⟨⟨hd, hname ▸ hx⟩, hname⟩

/-- No two first entries have the same name. -/
theorem nodup_firsts (es : List Entry) : ((firsts es).map name).Nodup := by
  induction es with
  | nil => exact List.nodup_nil
  | cons e rest ih =>
    refine List.nodup_cons.mpr ⟨?_, ?_⟩
    · simp
    · exact ih.sublist (List.filter_sublist.map name)

/-- No name is shown twice. -/
theorem nodup_shown (es : List Entry) : ((shown es).map name).Nodup := by
  rw [map_name_shown]
  exact nodup_firsts es

/-- What is shown was accepted. -/
theorem mem_of_mem_shown (h : e ∈ shown es) : e ∈ es := by
  obtain ⟨d, hd, rfl⟩ := List.mem_map.mp h
  unfold completed
  cases hfind : es.find? fun c => c.name = d.name && c.header.hasBody with
  | none => exact (firsts_sublist es).subset hd
  | some c => exact List.mem_of_find?_eq_some hfind

/-! ### One more entry

A declaration that is accepted has a new name, completes a prototype, or is another prototype. There
is one lemma about what is shown then for each of the three cases. -/

/-- An entry behind all others is the first of its name if the name is new. -/
theorem firsts_append (es : List Entry) (e : Entry) :
    firsts (es ++ [e]) = if e.name ∈ es.map name then firsts es else firsts es ++ [e] := by
  induction es with
  | nil => rfl
  | cons d rest ih =>
    rw [List.cons_append, firsts, ih, firsts]
    by_cases hd : e.name = d.name
    · rw [if_pos (show e.name ∈ (d :: rest).map name by simp [hd])]
      split
      · rfl
      · simp [hd]
    · by_cases hrest : e.name ∈ rest.map name
      · have hknown : e.name ∈ (d :: rest).map name := List.mem_cons_of_mem _ hrest
        rw [if_pos hrest, if_pos hknown]
      · have hnew : e.name ∉ (d :: rest).map name := by
          rw [List.map_cons, List.mem_cons, not_or]
          exact ⟨hd, hrest⟩
        rw [if_neg hrest, if_neg hnew, List.filter_append]
        simp [hd]

/-- An entry completes only entries of its own name. -/
theorem completed_append_of_ne (h : d.name ≠ e.name) :
    completed (es ++ [e]) d = completed es d := by
  unfold completed
  rw [List.find?_append]
  simp [h.symm]

/-- An entry without a body completes nothing. -/
theorem completed_append_of_not_hasBody (h : e.header.hasBody = false) :
    completed (es ++ [e]) d = completed es d := by
  unfold completed
  rw [List.find?_append]
  simp [h]

/-- A new name is shown behind the others. -/
theorem shown_append_of_not_mem (h : e.name ∉ es.map name) :
    shown (es ++ [e]) = shown es ++ [e] := by
  -- nothing before the new entry has its name, and so it completes itself at most
  have hself : completed (es ++ [e]) e = e := by
    unfold completed
    rw [List.find?_append, List.find?_eq_none.mpr]
    · cases hbody : e.header.hasBody <;> simp [hbody]
    · intro d hd
      have hne : d.name ≠ e.name := fun heq => h (heq ▸ List.mem_map_of_mem hd)
      simp [hne]
  unfold shown
  rw [firsts_append, if_neg h, List.map_append, List.map_singleton, hself]
  refine congrArg (· ++ [e]) (List.map_congr_left fun d hd => completed_append_of_ne fun heq => ?_)
  exact h (heq ▸ mem_names_firsts.mp (List.mem_map_of_mem hd))

/-- Another prototype shows nothing. -/
theorem shown_append_of_not_hasBody (h : e.name ∈ es.map name) (hbody : e.header.hasBody = false) :
    shown (es ++ [e]) = shown es := by
  unfold shown
  rw [firsts_append, if_pos h]
  exact List.map_congr_left fun d _ => completed_append_of_not_hasBody hbody

/-- A body completes the entry of its name. -/
theorem shown_append_of_hasBody (h : e.name ∈ es.map name) (hbody : e.header.hasBody = true)
    (hopen : ∀ d ∈ es, d.name = e.name → d.header.hasBody = false) :
    shown (es ++ [e]) = (shown es).map fun d => if d.name = e.name then e else d := by
  unfold shown
  rw [firsts_append, if_pos h, List.map_map]
  refine List.map_congr_left fun d _ => ?_
  rw [Function.comp_apply, name_completed]
  split
  next hname =>
    unfold completed
    rw [List.find?_append, List.find?_eq_none.mpr]
    · simp [hname, hbody]
    · intro c hc
      by_cases hcname : c.name = e.name
      · simp [hopen c hc hcname]
      · simp [hname, hcname]
  next hname => exact completed_append_of_ne hname

/-- All accepted entries fit together. -/
theorem pairwise_accepted (h : (es.map header).Pairwise Header.Compatible) (more : List Entry) :
    ((accepted es more).map header).Pairwise Header.Compatible := by
  induction more generalizing es with
  | nil => exact h
  | cons e rest ih =>
    rw [accepted]
    split
    next hfits =>
      refine ih ?_
      rw [List.map_append]
      refine List.pairwise_append.mpr ⟨h, List.pairwise_singleton _ _, fun a ha b hb => ?_⟩
      obtain ⟨d, hd, rfl⟩ := List.mem_map.mp ha
      rw [List.mem_singleton.mp hb]
      exact hfits d hd
    next => exact ih h

/-- At most one of the entries of a name has a body. -/
theorem eq_of_hasBody (h : (es.map header).Pairwise Header.Compatible) (hd : d ∈ es) (he : e ∈ es)
    (hname : d.name = e.name) (hdbody : d.header.hasBody = true) (hbody : e.header.hasBody = true) :
    d = e := by
  -- being equal if both have a body does not depend on which of the two comes first
  have hsymm : Std.Symm fun a b : Entry =>
      a.name = b.name → a.header.hasBody = true → b.header.hasBody = true → a = b :=
    ⟨fun a b hab hname hb ha => (hab hname.symm ha hb).symm⟩
  have hpair : es.Pairwise fun a b =>
      a.name = b.name → a.header.hasBody = true → b.header.hasBody = true → a = b :=
    (List.pairwise_map.mp h).imp fun hab hname ha hb => absurd ⟨ha, hb⟩ (hab hname).2.2
  exact hpair.forall_of_forall (fun a _ _ _ _ => rfl) hd he hname hdbody hbody

/-- Every accepted entry is shown once: by itself, or by an entry that declares the same. An entry
with a body is shown itself. -/
theorem existsUnique_shown (h : (es.map header).Pairwise Header.Compatible) (he : e ∈ es) :
    ∃! d, d ∈ shown es ∧ d.name = e.name ∧ d.header.entity = e.header.entity ∧
      (e.header.hasBody = true → d = e) := by
  -- some entry of this name is shown, and it declares the same
  have hmem : e.name ∈ (shown es).map name := by
    rw [map_name_shown, mem_names_firsts]
    exact List.mem_map_of_mem he
  obtain ⟨d, hd, hname⟩ := List.mem_map.mp hmem
  have hentity : d.header.entity = e.header.entity := by
    have hd' := Header.lookup_of_mem h (List.mem_map_of_mem (mem_of_mem_shown hd))
    have he' := Header.lookup_of_mem h (List.mem_map_of_mem he)
    rw [show d.header.name = e.header.name from hname] at hd'
    exact Option.some.inj (hd'.symm.trans he')
  have hbody : e.header.hasBody = true → d = e := by
    intro hbody
    obtain ⟨c, -, rfl⟩ := List.mem_map.mp hd
    rw [name_completed] at hname
    -- the search finds an entry with a body, and there is only one of this name
    have hfound : (es.find? fun d => d.name = c.name && d.header.hasBody).isSome = true := by
      rw [List.find?_isSome]
      exact ⟨e, he, by simp [hname, hbody]⟩
    obtain ⟨d, hfind⟩ := Option.isSome_iff_exists.mp hfound
    have hd := List.find?_some hfind
    simp only [Bool.and_eq_true, decide_eq_true_eq] at hd
    rw [completed, hfind, Option.getD_some]
    exact eq_of_hasBody h (List.mem_of_find?_eq_some hfind) he (hd.1.trans hname) hd.2 hbody
  refine ⟨d, ⟨hd, hname, hentity, hbody⟩, fun c ⟨hc, hcname, _⟩ => ?_⟩
  exact List.inj_on_of_nodup_map (nodup_shown es) hc hd (hcname.trans hname.symm)

/-- A compatible entry is accepted. -/
theorem accepted_of_fits (h : Fits es e) : accepted es [e] = es ++ [e] :=
  if_pos h

/-- An incompatible entry leaves the scope as it is. -/
theorem accepted_of_not_fits (h : ¬Fits es e) : accepted es [e] = es :=
  if_neg h

/-- A compatible entry is not rejected. -/
theorem rejected_of_fits (h : Fits es e) : rejected es [e] = [] :=
  if_pos h

/-- An incompatible entry is rejected. -/
theorem rejected_of_not_fits (h : ¬Fits es e) : rejected es [e] = [e] :=
  if_neg h

/-- The entries are declared one after the other. -/
theorem accepted_cons (es : List Entry) (e : Entry) (rest : List Entry) :
    accepted es (e :: rest) = accepted (accepted es [e]) rest := by
  simp only [accepted]
  split <;> rfl

/-- The rejected entries, one after the other; whether an entry is rejected depends on those
accepted before it. -/
theorem rejected_cons (es : List Entry) (e : Entry) (rest : List Entry) :
    rejected es (e :: rest) = rejected es [e] ++ rejected (accepted es [e]) rest := by
  simp only [accepted, rejected]
  split <;> rfl

/-- What was accepted stays accepted. -/
theorem prefix_accepted (es more : List Entry) : es <+: accepted es more := by
  induction more generalizing es with
  | nil => exact List.prefix_refl es
  | cons e rest ih =>
    rw [accepted]
    split
    · exact (List.prefix_append es [e]).trans (ih (es ++ [e]))
    · exact ih es

/-- Every entry is accepted or rejected. -/
theorem accepted_append_rejected_perm (es more : List Entry) :
    (accepted es more ++ rejected es more).Perm (es ++ more) := by
  induction more generalizing es with
  | nil => exact .refl _
  | cons e rest ih =>
    rw [accepted, rejected]
    split
    · exact (ih (es ++ [e])).trans (by rw [List.append_assoc]; exact .refl _)
    · exact List.perm_middle.trans (((ih es).cons e).trans List.perm_middle.symm)

end Entry

/-! ### Frames

The frame of the analysis keeps symbols instead of entries, and only the last one of each name.
`Shows` relates the two, and the three lemmas about one more entry carry over to the operations of a
frame. -/

namespace Frame

/-- The symbols of a frame have the names and the lines of the entries that it has accepted, in the
order in which a scope shows them. -/
def Shows (f : Frame) (es : List Entry) : Prop :=
  ∃ b, f.Represents b ∧
    b.map (fun p => (p.1, p.2.text)) = (Entry.shown es).map fun e => (e.name, e.line)

/-- An empty frame shows nothing. -/
theorem shows_empty : empty.Shows [] :=
  ⟨[], represents_empty, rfl⟩

namespace Shows

variable {f g : Frame} {es : List Entry} {e : Entry} {s : Symbol}

/-- The lines of a frame in a dump are those of the entries that it shows. -/
theorem map_text (h : f.Shows es) :
    f.symbols.toList.map Symbol.text = (Entry.shown es).map Entry.line := by
  obtain ⟨b, hb, hshown⟩ := h
  have hlines := congrArg (List.map Prod.snd) hshown
  rw [List.map_map, List.map_map] at hlines
  rw [hb.symbols, List.map_map]
  exact hlines

/-- The names of a frame. -/
theorem mem_names_iff {b : Bindings}
    (h : b.map (fun p => (p.1, p.2.text)) = (Entry.shown es).map fun e => (e.name, e.line))
    {x : String} : x ∈ b.map Prod.fst ↔ x ∈ es.map Entry.name := by
  have hnames := congrArg (List.map Prod.fst) h
  rw [List.map_map, List.map_map] at hnames
  rw [← Entry.mem_names_firsts, ← Entry.map_name_shown]
  exact iff_of_eq (congrArg (x ∈ ·) hnames)

/-- A frame finds the names of its entries, accepted prototypes included. -/
theorem get?_eq_none_iff (h : f.Shows es) {x : String} :
    f.get? x = none ↔ x ∉ es.map Entry.name := by
  obtain ⟨b, hb, hshown⟩ := h
  rw [hb.get?_eq, ← mem_names_iff hshown, List.lookup_eq_none_iff]
  simp only [List.mem_map, not_exists, not_and, bne_iff_ne]
  exact forall₂_congr fun p _ => ne_comm

/-- A frame refuses only the names that it has. -/
theorem mem_of_declare?_eq_none (h : f.Shows es) {x : String} (hnone : f.declare? x s = none) :
    x ∈ es.map Entry.name := by
  obtain ⟨b, hb, hshown⟩ := h
  have hrel := hb.declare? x s
  rw [hnone] at hrel
  unfold Bindings.declare? at hrel
  split at hrel
  · rename_i hknown
    exact (mem_names_iff hshown).mp hknown
  · cases hrel

/-- A declaration with a new name. -/
theorem declare (h : f.Shows es) (hg : f.declare? e.name s = some g) (htext : s.text = e.line) :
    g.Shows (es ++ [e]) := by
  obtain ⟨b, hb, hshown⟩ := h
  have hrel := hb.declare? e.name s
  rw [hg] at hrel
  unfold Bindings.declare? at hrel
  split at hrel
  · cases hrel
  · rename_i hnew
    -- the bindings of the frame have grown by the new name, at the end
    cases hrel with
    | some hg =>
      refine ⟨_, hg, ?_⟩
      rw [Entry.shown_append_of_not_mem (mt (mem_names_iff hshown).mpr hnew), List.map_append,
        List.map_append, hshown, List.map_singleton, List.map_singleton, htext]

/-- A body for a name that has none. -/
theorem redefine (h : f.Shows es) (hg : f.redefine? e.name s = some g) (htext : s.text = e.line)
    (hbody : e.header.hasBody = true)
    (hopen : ∀ d ∈ es, d.name = e.name → d.header.hasBody = false) : g.Shows (es ++ [e]) := by
  obtain ⟨b, hb, hshown⟩ := h
  have hrel := hb.redefine? e.name s
  rw [hg] at hrel
  unfold Bindings.redefine? at hrel
  split at hrel
  · rename_i hknown
    cases hrel with
    | some hg =>
      refine ⟨_, hg, ?_⟩
      -- the same line changes on both sides
      have hlines := congrArg (List.map fun p : String × String =>
        (p.1, if p.1 = e.name then e.line else p.2)) hshown
      rw [Entry.shown_append_of_hasBody ((mem_names_iff hshown).mp hknown) hbody hopen]
      simp only [List.map_map, Function.comp_def] at hlines ⊢
      have hleft : ∀ p : String × Symbol, (p.1, (if p.1 = e.name then s else p.2).text) =
          (p.1, if p.1 = e.name then e.line else p.2.text) := by
        intro p
        split
        · rw [htext]
        · rfl
      have hright : ∀ d : Entry, ((if d.name = e.name then e else d).name,
          (if d.name = e.name then e else d).line) =
          (d.name, if d.name = e.name then e.line else d.line) := by
        intro d
        split
        next hname => rw [hname]
        next => rfl
      simp only [hleft, hright]
      exact hlines
  · cases hrel

/-- Another prototype. -/
theorem again (h : f.Shows es) (hknown : e.name ∈ es.map Entry.name)
    (hbody : e.header.hasBody = false) : f.Shows (es ++ [e]) := by
  obtain ⟨b, hb, hshown⟩ := h
  exact ⟨b, hb, by rwa [Entry.shown_append_of_not_hasBody hknown hbody]⟩

end Shows

end Frame

end MiniC
