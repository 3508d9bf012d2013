import MiniC.Scope

/-!
# Lookups in scope tables

What a name stands for after the operations of a scope table. A frame keeps its symbols in an
array and the place of each name in a map; the map is one-to-one into the array, so adding or
replacing the symbol of a name changes what that name stands for and nothing else.

* `ScopeTable.lookup_declare`, `ScopeTable.lookup_redefine`: lookups after a change
* `ScopeTable.lookup_enter`: opening a frame changes no lookup
-/

namespace MiniC

namespace Frame

/-- Each name has a place of its own in the array of symbols. -/
structure Valid (f : Frame) : Prop where
  bound : ∀ (x : String) (i : Nat), f.index[x]? = some i → i < f.symbols.size
  injective : ∀ (x y : String) (i : Nat), f.index[x]? = some i → f.index[y]? = some i → x = y

/-- An empty frame has no names, so it is valid. -/
theorem valid_empty : Frame.empty.Valid := by
  constructor
  · intro x i h
    simp [Frame.empty] at h
  · intro x y i h
    simp [Frame.empty] at h

/-- A frame that accepts a declaration did not have the name. -/
theorem get?_eq_none_of_declare? {f g : Frame} {x : String} {s : Symbol}
    (h : f.declare? x s = some g) : f.get? x = none := by
  unfold declare? at h
  split at h
  · cases h
  · rename_i hnot
    have hnone : f.index[x]? = none := by
      apply Std.TreeMap.getElem?_eq_none
      simpa [Std.TreeMap.contains_iff_mem] using hnot
    simp [get?, hnone]

/-- A new symbol is put behind the others. -/
theorem declare?_eq {f g : Frame} {x : String} {s : Symbol} (h : f.declare? x s = some g) :
    g = ⟨f.index.insert x f.symbols.size, f.symbols.push s⟩ := by
  unfold declare? at h
  split at h
  · cases h
  · exact (Option.some.inj h).symm

/-- Declaring a name keeps the frame valid: the new name has the new place, and the others keep
theirs. -/
theorem Valid.declare {f g : Frame} {x : String} {s : Symbol} (hf : f.Valid)
    (h : f.declare? x s = some g) : g.Valid := by
  obtain rfl := declare?_eq h
  constructor
  · intro y i hy
    simp only [Std.TreeMap.getElem?_insert, Array.size_push] at hy ⊢
    -- the new name, and one that was there before
    split at hy
    · cases hy
      omega
    · have := hf.bound y i hy
      omega
  · intro y z i hy hz
    simp only [Std.TreeMap.getElem?_insert] at hy hz
    -- the new place is behind all others
    split at hy <;> split at hz
    · simp_all
    · cases hy
      exact absurd (hf.bound z _ hz) (by omega)
    · cases hz
      exact absurd (hf.bound y _ hy) (by omega)
    · exact hf.injective y z i hy hz

/-- After a declaration the name stands for the new symbol, and the others for what they did. -/
theorem get?_declare {f g : Frame} {x : String} {s : Symbol} (hf : f.Valid)
    (h : f.declare? x s = some g) (y : String) :
    g.get? y = if x = y then some s else f.get? y := by
  obtain rfl := declare?_eq h
  simp only [get?, Std.TreeMap.getElem?_insert, Std.compare_eq_iff_eq]
  split
  · simp
  · cases hy : f.index[y]? with
    | none => rfl
    | some i =>
      have hi := hf.bound y i hy
      simp [Array.getElem?_push, Nat.ne_of_lt hi]

/-- A symbol is put in the place of the one that its name had. -/
theorem redefine?_eq {f g : Frame} {x : String} {s : Symbol} (h : f.redefine? x s = some g) :
    ∃ i, f.index[x]? = some i ∧ g = { f with symbols := f.symbols.setIfInBounds i s } := by
  obtain ⟨i, hi, rfl⟩ := Option.map_eq_some_iff.mp h
  exact ⟨i, hi, rfl⟩

/-- Replacing a symbol moves no name to another place. -/
theorem Valid.redefine {f g : Frame} {x : String} {s : Symbol} (hf : f.Valid)
    (h : f.redefine? x s = some g) : g.Valid := by
  obtain ⟨i, -, rfl⟩ := redefine?_eq h
  constructor
  · intro y j hy
    simpa using hf.bound y j hy
  · intro y z j hy hz
    exact hf.injective y z j hy hz

/-- After a redefinition the name stands for the new symbol. The others have other places, so they
are as before. -/
theorem get?_redefine {f g : Frame} {x : String} {s : Symbol} (hf : f.Valid)
    (h : f.redefine? x s = some g) (y : String) :
    g.get? y = if x = y then some s else f.get? y := by
  obtain ⟨i, hi, rfl⟩ := redefine?_eq h
  have hlt := hf.bound x i hi
  simp only [get?]
  -- different names have different places
  by_cases hxy : x = y
  · subst hxy
    simp [hi, hlt]
  · rw [if_neg hxy]
    cases hy : f.index[y]? with
    | none => rfl
    | some j =>
      have hij : i ≠ j := by
        rintro rfl
        exact hxy (hf.injective x y i hi hy)
      simp [Array.getElem?_setIfInBounds, hij]

end Frame

namespace ScopeTable

/-- All frames are valid. -/
def Valid (t : ScopeTable) : Prop :=
  ∀ f ∈ t.frames, f.Valid

/-- Opening a frame keeps the table valid. -/
theorem Valid.enter {t : ScopeTable} (h : t.Valid) : t.enter.Valid := by
  intro f hf
  rcases List.mem_cons.mp hf with rfl | hf
  · exact Frame.valid_empty
  · exact h f hf

/-- A change of the innermost frame, seen from the frame. -/
theorem updateInner?_eq {t u : ScopeTable} {change : Frame → Option Frame}
    (h : t.updateInner? change = some u) :
    ∃ f outer g, t.frames = f :: outer ∧ change f = some g ∧ u = ⟨g :: outer⟩ := by
  unfold updateInner? at h
  split at h
  · cases h
  · rename_i f outer hf
    obtain ⟨g, hg, rfl⟩ := Option.map_eq_some_iff.mp h
    exact ⟨f, outer, g, hf, hg, rfl⟩

/-- A lookup goes to the innermost frame first, and then to the outer ones. -/
theorem lookup_eq {t : ScopeTable} {f : Frame} {outer : List Frame} (h : t.frames = f :: outer)
    (x : String) : t.lookup x = (f.get? x).or ((⟨outer⟩ : ScopeTable).lookup x) := by
  unfold lookup
  rw [h, List.findSome?_cons]
  cases f.get? x with
  | none => rfl
  | some s => rfl

/-- An empty frame answers no lookup. -/
theorem lookup_enter (t : ScopeTable) (x : String) : t.enter.lookup x = t.lookup x := by
  rw [lookup_eq (t := t.enter) rfl]
  simp [Frame.get?, Frame.empty]

/-- Declaring a name keeps the table valid. -/
theorem Valid.declare {t u : ScopeTable} {x : String} {s : Symbol} (ht : t.Valid)
    (h : t.declare? x s = some u) : u.Valid := by
  obtain ⟨f, outer, g, hf, hg, rfl⟩ := updateInner?_eq h
  intro k hk
  rcases List.mem_cons.mp hk with rfl | hk
  · exact (ht f (by simp [hf])).declare hg
  · exact ht k (by simp [hf, hk])

/-- Redefining a name keeps the table valid. -/
theorem Valid.redefine {t u : ScopeTable} {x : String} {s : Symbol} (ht : t.Valid)
    (h : t.redefine? x s = some u) : u.Valid := by
  obtain ⟨f, outer, g, hf, hg, rfl⟩ := updateInner?_eq h
  intro k hk
  rcases List.mem_cons.mp hk with rfl | hk
  · exact (ht f (by simp [hf])).redefine hg
  · exact ht k (by simp [hf, hk])

/-- After a declaration the name stands for the new symbol, even if an outer frame has it too. -/
theorem lookup_declare {t u : ScopeTable} {x : String} {s : Symbol} (ht : t.Valid)
    (h : t.declare? x s = some u) (y : String) :
    u.lookup y = if x = y then some s else t.lookup y := by
  obtain ⟨f, outer, g, hf, hg, rfl⟩ := updateInner?_eq h
  rw [lookup_eq (t := ⟨g :: outer⟩) rfl, lookup_eq hf,
    Frame.get?_declare (ht f (by simp [hf])) hg]
  split
  · rfl
  · rfl

/-- After a redefinition the name stands for the new symbol, as in `lookup_declare`. -/
theorem lookup_redefine {t u : ScopeTable} {x : String} {s : Symbol} (ht : t.Valid)
    (h : t.redefine? x s = some u) (y : String) :
    u.lookup y = if x = y then some s else t.lookup y := by
  obtain ⟨f, outer, g, hf, hg, rfl⟩ := updateInner?_eq h
  rw [lookup_eq (t := ⟨g :: outer⟩) rfl, lookup_eq hf,
    Frame.get?_redefine (ht f (by simp [hf])) hg]
  split
  · rfl
  · rfl

/-- The table has the global frame alone. -/
def IsGlobal (t : ScopeTable) : Prop :=
  ∃ f, t.frames = [f]

/-- A declaration adds no frame. -/
theorem IsGlobal.declare {t u : ScopeTable} {x : String} {s : Symbol} (ht : t.IsGlobal)
    (h : t.declare? x s = some u) : u.IsGlobal := by
  obtain ⟨f, outer, g, hf, hg, rfl⟩ := updateInner?_eq h
  obtain ⟨k, hk⟩ := ht
  rw [hf] at hk
  cases hk
  exact ⟨g, rfl⟩

/-- A redefinition adds no frame. -/
theorem IsGlobal.redefine {t u : ScopeTable} {x : String} {s : Symbol} (ht : t.IsGlobal)
    (h : t.redefine? x s = some u) : u.IsGlobal := by
  obtain ⟨f, outer, g, hf, hg, rfl⟩ := updateInner?_eq h
  obtain ⟨k, hk⟩ := ht
  rw [hf] at hk
  cases hk
  exact ⟨g, rfl⟩

/-- With the global frame alone, the innermost frame answers every lookup. -/
theorem IsGlobal.lookupInner {t : ScopeTable} (ht : t.IsGlobal) (x : String) :
    t.lookupInner x = t.lookup x := by
  obtain ⟨f, hf⟩ := ht
  rw [lookup_eq hf]
  simp [ScopeTable.lookupInner, hf, lookup]

/-- Where there is one frame only, a name that can be declared stood for nothing. -/
theorem IsGlobal.lookup_eq_none_of_declare {t u : ScopeTable} {x : String} {s : Symbol}
    (ht : t.IsGlobal) (h : t.declare? x s = some u) : t.lookup x = none := by
  obtain ⟨f, outer, g, hf, hg, rfl⟩ := updateInner?_eq h
  rw [← ht.lookupInner]
  simp [ScopeTable.lookupInner, hf, Frame.get?_eq_none_of_declare? hg]

/-- The initial table is valid, and has the names of the routines alone. -/
theorem valid_initial : initial.Valid ∧ ∀ x, initial.lookup x =
    if "output" = x then some (.function "output" .void [⟨"x", .scalar .int⟩] true)
    else if "input" = x then some (.function "input" .int [] true) else none := by
  have hbare : bare.Valid := by
    intro f hf
    obtain rfl := List.mem_singleton.mp hf
    exact Frame.valid_empty
  have hin : bare.declare? "input" (.function "input" .int [] true) =
      some (bare.declare "input" (.function "input" .int [] true)) := rfl
  have hout : (bare.declare "input" (.function "input" .int [] true)).declare? "output"
      (.function "output" .void [⟨"x", .scalar .int⟩] true) = some initial := rfl
  have hv := hbare.declare hin
  refine ⟨hv.declare hout, ?_⟩
  intro x
  rw [lookup_declare hv hout, lookup_declare hbare hin]
  rfl

end ScopeTable

end MiniC
