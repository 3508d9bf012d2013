import Mathlib.Data.List.Forall2
import Mathlib.Data.List.Nodup
import MiniC.Proofs.Scopes

/-!
# Scope tables as lists

What a scope table is for can be said without maps and arrays. A frame is a list of names with their
symbols, in the order of their declaration, and a table is a stack of such lists. Every operation of
a table answers what the same operation of the lists answers, whatever was done before.

* `Bindings`, `BindingStack`: frames and tables as lists
* `Frame.Represents`: a frame holds a list, and its index finds the place of each name in it
* `ScopeTable.perform_agrees`, `ScopeTable.performAll_agrees`: one operation, and any number of them
* `Balanced.restores`: what was entered is left behind when it is exited
* `scopes_refine`: tables that start with the routines
-/

namespace MiniC

/-! ### Lists of names

A list of names with their symbols, in the order of declaration, is what a frame stands for. Each
name is in it once, so lookups do not depend on the order. -/

/-- The names of a frame with their symbols, in the order of their declaration. -/
abbrev Bindings := List (String × Symbol)

namespace Bindings

/-- Adds a name behind the others; refused if the name is among them. -/
def declare? (b : Bindings) (x : String) (s : Symbol) : Option Bindings :=
  if x ∈ b.map Prod.fst then none else some (b ++ [(x, s)])

/-- Gives a name another symbol, in its place; refused if the name is not there. -/
def redefine? (b : Bindings) (x : String) (s : Symbol) : Option Bindings :=
  if x ∈ b.map Prod.fst then some (b.map fun (y, t) => (y, if y = x then s else t)) else none

/-- What stands at some place of the list is found under its name. -/
theorem lookup_of_getElem? {b : Bindings} (h : (b.map Prod.fst).Nodup) {i : Nat} {x : String}
    {s : Symbol} (hi : b[i]? = some (x, s)) : b.lookup x = some s := by
  induction b generalizing i with
  | nil => cases hi
  | cons p rest ih =>
    obtain ⟨hp, hrest⟩ := List.nodup_cons.mp h
    cases i with
    | zero =>
      obtain rfl := Option.some.inj hi
      exact List.lookup_cons_self
    | succ i =>
      have hx : x ∈ rest.map Prod.fst :=
        List.mem_map_of_mem (f := Prod.fst) (List.mem_of_getElem? (i := i) hi)
      have hne : x ≠ p.1 := fun heq => hp (heq ▸ hx)
      rw [List.lookup_cons, beq_eq_false_iff_ne.mpr hne]
      exact ih hrest hi

/-- A name that is not in the list is not found. -/
theorem lookup_eq_none {b : Bindings} {x : String} (h : x ∉ b.map Prod.fst) :
    b.lookup x = none := by
  rw [List.lookup_eq_none_iff]
  intro p hp
  exact bne_iff_ne.mpr fun heq => h (heq ▸ List.mem_map_of_mem hp)

end Bindings

/-! ### Frames

A frame keeps its symbols in an array and finds them through an index. The one that `Represents`
relates it to has no index, and each operation on the frame is followed by the same operation on the
list. -/

namespace Frame

/-- A frame holds these names and symbols, and the index gives each name its place. -/
structure Represents (f : Frame) (b : Bindings) : Prop where
  symbols : f.symbols.toList = b.map Prod.snd
  index : ∀ (x : String) (i : Nat), f.index[x]? = some i ↔ (b.map Prod.fst)[i]? = some x

/-- The index maps the names of a frame one-to-one onto the places of its symbols. -/
structure Indexed (f : Frame) : Prop where
  bound : ∀ (x : String) (i : Nat), f.index[x]? = some i → i < f.symbols.size
  unique : ∀ i < f.symbols.size, ∃! x : String, f.index[x]? = some i

/-- An empty frame is an empty list. -/
theorem represents_empty : empty.Represents [] :=
  ⟨rfl, fun x i => by simp [empty]⟩

namespace Represents

variable {f : Frame} {b : Bindings}

/-- There are as many symbols as names. -/
theorem size_eq (h : f.Represents b) : f.symbols.size = b.length := by
  rw [← Array.length_toList, h.symbols, List.length_map]

/-- The symbols stand in the order of the names. -/
theorem getElem?_symbols (h : f.Represents b) (i : Nat) : f.symbols[i]? = (b[i]?).map Prod.snd := by
  rw [← Array.getElem?_toList, h.symbols, List.getElem?_map]

/-- No name has two places, so no place repeats a name. -/
theorem nodup (h : f.Represents b) : (b.map Prod.fst).Nodup := by
  rw [List.nodup_iff_getElem?_ne_getElem?]
  intro i j hij hj heq
  obtain ⟨x, hx⟩ : ∃ x, (b.map Prod.fst)[j]? = some x := ⟨_, List.getElem?_eq_getElem hj⟩
  have hi := (h.index x i).mpr (heq.trans hx)
  rw [(h.index x j).mpr hx] at hi
  exact absurd (Option.some.inj hi) (Nat.ne_of_gt hij)

/-- The index has the names of the list. -/
theorem exists_place_iff (h : f.Represents b) (x : String) :
    (∃ i, f.index[x]? = some i) ↔ x ∈ b.map Prod.fst := by
  simp only [h.index, List.mem_iff_getElem?]

/-- The index and the array belong together. -/
theorem indexed (h : f.Represents b) : f.Indexed := by
  have hlength : (b.map Prod.fst).length = f.symbols.size := by rw [List.length_map, h.size_eq]
  refine ⟨fun x i hi => ?_, fun i hi => ?_⟩
  · obtain ⟨hlt, -⟩ := List.getElem?_eq_some_iff.mp ((h.index x i).mp hi)
    rwa [hlength] at hlt
  · have hx := List.getElem?_eq_getElem (l := b.map Prod.fst) (hlength ▸ hi)
    refine ⟨_, (h.index _ i).mpr hx, fun y hy => ?_⟩
    exact Option.some.inj (((h.index y i).mp hy).symm.trans hx)

/-- A name is looked up in the frame as in the list. -/
theorem get?_eq (h : f.Represents b) (x : String) : f.get? x = b.lookup x := by
  unfold get?
  cases hplace : f.index[x]? with
  | none =>
    have hx : x ∉ b.map Prod.fst := by
      rw [← h.exists_place_iff, hplace]
      simp
    exact (Bindings.lookup_eq_none hx).symm
  | some i =>
    have hi := (h.index x i).mp hplace
    rw [List.getElem?_map] at hi
    obtain ⟨⟨y, s⟩, hbi, rfl⟩ := Option.map_eq_some_iff.mp hi
    rw [Option.bind_some, h.getElem?_symbols, hbi, Bindings.lookup_of_getElem? h.nodup hbi]
    rfl

/-- A declaration succeeds in the frame if it does in the list, and then the new frame is the new
list. -/
theorem declare? (h : f.Represents b) (x : String) (s : Symbol) :
    Option.Rel Represents (f.declare? x s) (b.declare? x s) := by
  unfold Frame.declare? Bindings.declare?
  have hcontains : f.index.contains x = true ↔ x ∈ b.map Prod.fst := by
    rw [← h.exists_place_iff, Std.TreeMap.contains_eq_isSome_getElem?, Option.isSome_iff_exists]
  by_cases hx : x ∈ b.map Prod.fst
  · rw [if_pos (hcontains.mpr hx), if_pos hx]
    exact .none
  · rw [if_neg (mt hcontains.mp hx), if_neg hx]
    refine .some ⟨by simp [h.symbols], fun y i => ?_⟩
    -- the new name has the place behind all others
    have hlength : (b.map Prod.fst).length = f.symbols.size := by rw [List.length_map, h.size_eq]
    rw [List.map_append, List.getElem?_append, Std.TreeMap.getElem?_insert, hlength]
    by_cases hxy : x = y
    · subst hxy
      have hnone : ∀ i, (b.map Prod.fst)[i]? ≠ some x := fun i hi =>
        hx (List.mem_of_getElem? hi)
      rw [if_pos Std.ReflCmp.compare_self]
      split
      · rename_i hlt
        simp only [hnone, Option.some.injEq, iff_false]
        omega
      · simp only [Option.some.injEq, List.map_cons, List.map_nil, List.getElem?_singleton]
        split
        · simp only [iff_true]
          omega
        · simp only [reduceCtorEq, iff_false]
          omega
    · rw [if_neg (mt Std.LawfulEqCmp.eq_of_compare hxy), h.index]
      split
      · rfl
      · rename_i hge
        rw [List.getElem?_eq_none (by omega)]
        simp only [List.map_cons, List.map_nil, List.getElem?_singleton]
        split
        · simp [hxy]
        · rfl

/-- The same of a redefinition, as in `Represents.declare?`. -/
theorem redefine? (h : f.Represents b) (x : String) (s : Symbol) :
    Option.Rel Represents (f.redefine? x s) (b.redefine? x s) := by
  unfold Frame.redefine? Bindings.redefine?
  cases hplace : f.index[x]? with
  | none =>
    have hx : x ∉ b.map Prod.fst := by
      rw [← h.exists_place_iff, hplace]
      simp
    rw [if_neg hx]
    exact .none
  | some i =>
    rw [if_pos ((h.exists_place_iff x).mp ⟨i, hplace⟩)]
    have hkeys : ((b.map fun (y, t) => (y, if y = x then s else t)).map Prod.fst)
        = b.map Prod.fst := by
      rw [List.map_map]
      rfl
    refine .some ⟨?_, fun y j => by rw [hkeys]; exact h.index y j⟩
    refine List.ext_getElem? fun j => ?_
    simp only [Array.toList_setIfInBounds, List.getElem?_set, List.getElem?_map,
      Array.getElem?_toList, Array.length_toList, h.getElem?_symbols, h.size_eq]
    have hi := (h.index x i).mp hplace
    rw [List.getElem?_map] at hi
    by_cases hij : i = j
    · subst hij
      obtain ⟨⟨y, t⟩, hbi, rfl⟩ := Option.map_eq_some_iff.mp hi
      obtain ⟨hlt, hget⟩ := List.getElem?_eq_some_iff.mp hbi
      simp [hget, hlt]
    · rw [if_neg hij]
      cases hbj : b[j]? with
      | none => rfl
      | some p =>
        -- another place has another name
        have hne : p.1 ≠ x := by
          intro heq
          have hj := (h.index x j).mpr (by rw [List.getElem?_map, hbj, Option.map_some, heq])
          rw [hplace] at hj
          exact hij (Option.some.inj hj)
        simp [hne]

end Represents

end Frame

/-! ### Tables

The operations of a table change its innermost frame, or add or drop it. So what holds of a frame
carries over to the table, frame by frame. -/

/-- The lists of the frames of a table, the innermost first. -/
abbrev BindingStack := List Bindings

/-- A table holds these lists, one in each frame. -/
def ScopeTable.Represents (t : ScopeTable) (Γ : BindingStack) : Prop :=
  List.Forall₂ Frame.Represents t.frames Γ

/-- The operations of a table. -/
inductive ScopeOp where
  | enter
  | exit
  /-- The name need not be the one under which the symbol was made. -/
  | declare (name : String) (symbol : Symbol)
  | redefine (name : String) (symbol : Symbol)
  | lookup (name : String)
  | lookupInner (name : String)
  | symbols

/-- What an operation answers. -/
inductive ScopeAnswer where
  | done
  | accepted (holds : Bool)
  | found (symbol : Option Symbol)
  | symbols (symbols : List Symbol)
deriving DecidableEq

/-- Performs an operation on a table. Only an exit needs a frame. -/
def ScopeTable.perform (t : ScopeTable) : ScopeOp → Option (ScopeAnswer × ScopeTable)
  | .enter => some (.done, t.enter)
  | .exit => t.exit?.map fun (f, outer) => (.symbols f.symbols.toList, outer)
  | .declare x s => some (.accepted (t.declare? x s).isSome, (t.declare? x s).getD t)
  | .redefine x s => some (.accepted (t.redefine? x s).isSome, (t.redefine? x s).getD t)
  | .lookup x => some (.found (t.lookup x), t)
  | .lookupInner x => some (.found (t.lookupInner x), t)
  | .symbols => some (.symbols t.symbols, t)

namespace BindingStack

/-- The list of the global frame that every program starts with. -/
def initial : BindingStack :=
  [[("input", .function "input" .int [] true),
    ("output", .function "output" .void [⟨"x", .scalar .int⟩] true)]]

/-- Changes the innermost list; nothing changes if there is none or the change is refused. -/
def change (Γ : BindingStack) (f : Bindings → Option Bindings) : ScopeAnswer × BindingStack :=
  match Γ with
  | [] => (.accepted false, [])
  | b :: outer =>
    match f b with
    | none => (.accepted false, b :: outer)
    | some c => (.accepted true, c :: outer)

/-- Performs an operation on lists. -/
def perform (Γ : BindingStack) : ScopeOp → Option (ScopeAnswer × BindingStack)
  | .enter => some (.done, [] :: Γ)
  | .exit =>
    match Γ with
    | [] => none
    | b :: outer => some (.symbols (b.map Prod.snd), outer)
  | .declare x s => some (Γ.change (Bindings.declare? · x s))
  | .redefine x s => some (Γ.change (Bindings.redefine? · x s))
  | .lookup x => some (.found (Γ.findSome? (List.lookup x)), Γ)
  | .lookupInner x => some (.found (Γ.head?.bind (List.lookup x)), Γ)
  | .symbols => some (.symbols ((Γ.head?.getD []).map Prod.snd), Γ)

end BindingStack

namespace ScopeTable

/-- The same answer, and what the table holds afterwards. -/
structure Agrees {α : Type} (p : α × ScopeTable) (q : α × BindingStack) : Prop where
  answer : p.1 = q.1
  represents : p.2.Represents q.2

section Perform

variable {t : ScopeTable} {Γ : BindingStack}

/-- A name is looked up in the frames from the inside outwards. -/
theorem Represents.lookup_eq (h : t.Represents Γ) (x : String) :
    t.lookup x = Γ.findSome? (List.lookup x) := by
  obtain ⟨frames⟩ := t
  have hframes : List.Forall₂ Frame.Represents frames Γ := h
  clear h
  induction hframes with
  | nil => rfl
  | @cons f b _ _ hf _ ih =>
    rw [ScopeTable.lookup_eq rfl, hf.get?_eq, ih, List.findSome?_cons]
    cases List.lookup x b with
    | none => rfl
    | some s => rfl

/-- Every frame of the table has its index. -/
theorem Represents.indexed (h : t.Represents Γ) : ∀ f ∈ t.frames, f.Indexed := by
  obtain ⟨frames⟩ := t
  have hframes : List.Forall₂ Frame.Represents frames Γ := h
  clear h
  induction hframes with
  | nil => exact List.forall_mem_nil _
  | cons hf _ ih => exact List.forall_mem_cons.mpr ⟨hf.indexed, ih⟩

/-- A change of the innermost frame, and the same change of the list in it. -/
theorem Represents.change (h : t.Represents Γ) {f : Frame → Option Frame}
    {g : Bindings → Option Bindings}
    (hchange : ∀ {k b}, Frame.Represents k b → Option.Rel Frame.Represents (f k) (g b)) :
    Agrees (.accepted (t.updateInner? f).isSome, (t.updateInner? f).getD t) (Γ.change g) := by
  obtain ⟨frames⟩ := t
  cases h with
  | nil => exact ⟨rfl, .nil⟩
  | @cons k b outer Γ hk houter =>
    have hrel := hchange hk
    simp only [updateInner?, BindingStack.change]
    generalize f k = k' at hrel ⊢
    generalize g b = b' at hrel ⊢
    cases hrel with
    | none => exact ⟨rfl, .cons hk houter⟩
    | some hk' => exact ⟨rfl, .cons hk' houter⟩

/-- A table answers an operation as its lists do. -/
theorem perform_agrees (h : t.Represents Γ) (op : ScopeOp) :
    Option.Rel Agrees (t.perform op) (Γ.perform op) := by
  obtain ⟨frames⟩ := t
  cases op with
  | enter => exact .some ⟨rfl, .cons Frame.represents_empty h⟩
  | exit =>
    cases h with
    | nil => exact .none
    | cons hk houter => exact .some ⟨congrArg ScopeAnswer.symbols hk.symbols, houter⟩
  | declare x s => exact .some (h.change fun hk => hk.declare? x s)
  | redefine x s => exact .some (h.change fun hk => hk.redefine? x s)
  | lookup x => exact .some ⟨congrArg ScopeAnswer.found (h.lookup_eq x), h⟩
  | lookupInner x =>
    refine .some ⟨congrArg ScopeAnswer.found ?_, h⟩
    cases h with
    | nil => rfl
    | cons hk _ => exact hk.get?_eq x
  | symbols =>
    refine .some ⟨congrArg ScopeAnswer.symbols ?_, h⟩
    cases h with
    | nil => rfl
    | cons hk _ => exact hk.symbols

end Perform

/-- The initial table has the two routines. -/
theorem represents_initial : initial.Represents BindingStack.initial := by
  have hbare : bare.Represents [[]] := .cons Frame.represents_empty .nil
  have hin := (perform_agrees hbare (.declare "input" (.function "input" .int [] true)))
  cases hin with
  | some hin =>
    have hout := perform_agrees hin.represents
      (.declare "output" (.function "output" .void [⟨"x", .scalar .int⟩] true))
    cases hout with
    | some hout => exact hout.represents

end ScopeTable

/-! ### Sequences of operations

By induction on the operations. A balanced sequence drops every frame that it adds, and works on
these alone. -/

/-- Performs operations in order; nothing if one of them is not possible. -/
def performAll {τ : Type} (perform : τ → ScopeOp → Option (ScopeAnswer × τ)) :
    τ → List ScopeOp → Option (List ScopeAnswer × τ)
  | t, [] => some ([], t)
  | t, op :: rest =>
    (perform t op).bind fun (answer, t') =>
      (performAll perform t' rest).map fun (answers, t'') => (answer :: answers, t'')

/-- The operations leave and enter no frame but those that they enter and leave themselves. -/
inductive Balanced : List ScopeOp → Prop where
  | nil : Balanced []
  | cons {op ops} (henter : op ≠ .enter) (hexit : op ≠ .exit) (h : Balanced ops) :
      Balanced (op :: ops)
  | nested {inner ops} (hinner : Balanced inner) (h : Balanced ops) :
      Balanced (.enter :: inner ++ .exit :: ops)

/-- Two sequences, one after the other. -/
theorem performAll_append {τ : Type} (perform : τ → ScopeOp → Option (ScopeAnswer × τ)) (t : τ)
    (ops ops' : List ScopeOp) :
    performAll perform t (ops ++ ops') = (performAll perform t ops).bind fun (answers, t') =>
      (performAll perform t' ops').map fun (answers', t'') => (answers ++ answers', t'') := by
  induction ops generalizing t with
  | nil =>
    rw [List.nil_append, performAll, Option.bind_some]
    exact Option.map_id'.symm
  | cons op rest ih =>
    simp only [List.cons_append, performAll, ih]
    cases perform t op with
    | none => rfl
    | some p =>
      simp only [Option.bind_some, Option.bind_map]
      cases performAll perform p.2 rest with
      | none => rfl
      | some q =>
        simp only [Option.bind_some, Function.comp_def, Option.map_map]
        rfl

/-- A table answers any operations as its lists do. -/
theorem ScopeTable.performAll_agrees {t : ScopeTable} {Γ : BindingStack} (h : t.Represents Γ)
    (ops : List ScopeOp) :
    Option.Rel Agrees (performAll ScopeTable.perform t ops)
      (performAll BindingStack.perform Γ ops) := by
  induction ops generalizing t Γ with
  | nil => exact .some ⟨rfl, h⟩
  | cons op rest ih =>
    have hop := perform_agrees h op
    simp only [performAll]
    generalize t.perform op = p at hop ⊢
    generalize Γ.perform op = q at hop ⊢
    cases hop with
    | none => exact .none
    | @some p q hpq =>
      have hrest := ih hpq.represents
      simp only [Option.bind_some]
      generalize performAll ScopeTable.perform p.2 rest = p' at hrest ⊢
      generalize performAll BindingStack.perform q.2 rest = q' at hrest ⊢
      cases hrest with
      | none => exact .none
      | some hrest =>
        exact .some ⟨congrArg₂ List.cons hpq.answer hrest.answer, hrest.represents⟩

/-- An operation that neither enters nor leaves a frame keeps all frames but the innermost. -/
theorem ScopeTable.perform_inner {op : ScopeOp} (henter : op ≠ .enter) (hexit : op ≠ .exit)
    (f : Frame) (outer : List Frame) :
    ∃ answer g, ScopeTable.perform ⟨f :: outer⟩ op = some (answer, ⟨g :: outer⟩) := by
  have hchange : ∀ change : Frame → Option Frame, ∃ g,
      (ScopeTable.updateInner? ⟨f :: outer⟩ change).getD ⟨f :: outer⟩ = ⟨g :: outer⟩ := by
    intro change
    cases hg : change f with
    | none => exact ⟨f, by simp [updateInner?, hg]⟩
    | some g => exact ⟨g, by simp [updateInner?, hg]⟩
  cases op with
  | enter => exact absurd rfl henter
  | exit => exact absurd rfl hexit
  | declare x s =>
    obtain ⟨g, hg⟩ := hchange (Frame.declare? · x s)
    exact ⟨_, g, congrArg (fun t => some (_, t)) hg⟩
  | redefine x s =>
    obtain ⟨g, hg⟩ := hchange (Frame.redefine? · x s)
    exact ⟨_, g, congrArg (fun t => some (_, t)) hg⟩
  | lookup x => exact ⟨_, f, rfl⟩
  | lookupInner x => exact ⟨_, f, rfl⟩
  | symbols => exact ⟨_, f, rfl⟩

/-- Balanced operations keep all frames but the innermost. -/
theorem Balanced.performAll_inner {ops : List ScopeOp} (h : Balanced ops) (f : Frame)
    (outer : List Frame) :
    ∃ answers g, performAll ScopeTable.perform ⟨f :: outer⟩ ops = some (answers, ⟨g :: outer⟩) := by
  induction h generalizing f outer with
  | nil => exact ⟨[], f, rfl⟩
  | cons henter hexit _ ih =>
    obtain ⟨answer, g, hop⟩ := ScopeTable.perform_inner henter hexit f outer
    obtain ⟨answers, g', hrest⟩ := ih g outer
    exact ⟨answer :: answers, g', by simp only [performAll, hop, Option.bind_some, hrest,
      Option.map_some]⟩
  | @nested inner ops _ _ ihinner ih =>
    obtain ⟨answers, g, hinner⟩ := ihinner Frame.empty (f :: outer)
    obtain ⟨answers', g', hrest⟩ := ih f outer
    refine ⟨.done :: (answers ++ .symbols g.symbols.toList :: answers'), g', ?_⟩
    simp only [List.cons_append, performAll, ScopeTable.perform, ScopeTable.enter, Option.bind_some,
      performAll_append, hinner, ScopeTable.exit?, Option.map_some, hrest]

/-- What is done between an enter and its exit leaves nothing behind. -/
theorem Balanced.restores {inner : List ScopeOp} (h : Balanced inner) (t : ScopeTable) :
    ∃ answers, performAll ScopeTable.perform t (.enter :: inner ++ [.exit]) = some
      (answers, t) := by
  obtain ⟨frames⟩ := t
  obtain ⟨answers, g, hinner⟩ := h.performAll_inner Frame.empty frames
  refine ⟨.done :: (answers ++ [.symbols g.symbols.toList]), ?_⟩
  simp only [List.cons_append, performAll, ScopeTable.perform, ScopeTable.enter, Option.bind_some,
    performAll_append, hinner, ScopeTable.exit?, Option.map_some]

/-- A scope table refines a stack of lists. Whatever is done to a table that starts with the
routines, it answers what lists of names and symbols answer, and holds the same names and symbols in
the same order. The index of each of its frames maps the names of the frame one-to-one onto the
places of its symbols. A balanced sequence between an enter and its exit leaves the table, and so
all lookups, as they were. -/
theorem scopes_refine (ops : List ScopeOp) :
    Option.Rel ScopeTable.Agrees (performAll ScopeTable.perform .initial ops)
        (performAll BindingStack.perform .initial ops) ∧
      ∀ answers t, performAll ScopeTable.perform .initial ops = some (answers, t) →
        (∀ f ∈ t.frames, f.Indexed) ∧
        ∀ inner, Balanced inner → ∃ answers',
          performAll ScopeTable.perform t (.enter :: inner ++ [.exit]) = some (answers', t) := by
  have hagrees := ScopeTable.performAll_agrees ScopeTable.represents_initial ops
  refine ⟨hagrees, fun answers t ht => ⟨fun f hf => ?_, fun inner hinner => hinner.restores t⟩⟩
  rw [ht] at hagrees
  generalize performAll BindingStack.perform .initial ops = q at hagrees
  cases hagrees with
  | some h => exact h.represents.indexed f hf

/-- A scalar variable of a function. -/
def localSymbol (name : String) (offset : Int) : Symbol :=
  .var name (.scalar .int) ⟨1, offset, .scalar⟩

/-- A name is declared in two frames under other names of its symbols, refused where it is declared,
and replaced; then the global frame is left, and another frame entered. -/
def shadowingOps : List ScopeOp :=
  [.declare "x" (localSymbol "y" 0), .enter, .declare "x" (localSymbol "z" (-2)),
    .declare "x" (localSymbol "x" (-3)), .redefine "x" (localSymbol "w" (-4)),
    .redefine "output" (localSymbol "v" (-5)), .lookup "x", .lookupInner "input", .exit,
    .lookup "x", .exit, .declare "x" (localSymbol "x" 0), .lookup "x", .enter,
    .declare "x" (localSymbol "u" 0)]

/-- What these operations answer. -/
def shadowingAnswers : List ScopeAnswer :=
  [.accepted true, .done, .accepted true, .accepted false, .accepted true, .accepted false,
    .found (some (localSymbol "w" (-4))), .found none, .symbols [localSymbol "w" (-4)],
    .found (some (localSymbol "y" 0)),
    .symbols [.function "input" .int [] true, .function "output" .void [⟨"x", .scalar .int⟩] true,
      localSymbol "y" 0],
    .accepted false, .found none, .done, .accepted true]

/-- The theorem at work on a sequence that hides a name and gets it back. -/
theorem scopes_refine_shadowing : ∃ t,
    performAll ScopeTable.perform .initial shadowingOps = some (shadowingAnswers, t) ∧
    (∀ f ∈ t.frames, f.Indexed) ∧ ∃ answers,
      performAll ScopeTable.perform t
        (.enter :: [.declare "x" (localSymbol "z" (-2)), .enter, .exit] ++ [.exit])
          = some (answers, t) := by
  have hanswers : (performAll ScopeTable.perform .initial shadowingOps).map Prod.fst =
      some shadowingAnswers := by decide +kernel
  obtain ⟨⟨_, t⟩, hrun, rfl⟩ := Option.map_eq_some_iff.mp hanswers
  obtain ⟨hindexed, hrestores⟩ := (scopes_refine shadowingOps).2 _ t hrun
  exact ⟨t, hrun, hindexed, hrestores _ (.cons (by simp) (by simp) (.nested .nil .nil))⟩

end MiniC
