import Mathlib.Order.Basic
import MiniC.Text.Blank
import MiniC.Text.Decimal

/-!
# Fields of a text

A field that was written can be read again: what stands in front of the first separator, and a
number, as the whole of a text or in front of what is not a digit.

* `takeWhile_ne_append`, `dropWhile_ne_append`: up to a separator
* `Decimal.readNat?_toString`, `Decimal.readInt?_toString`: the whole of a text
* `Decimal.takeNat_append`, `Decimal.takeInt_append`: in front of other text
-/

namespace MiniC

section Separated

variable {α : Type} [DecidableEq α] {sep : α} {front : List α} (h : sep ∉ front) (rest : List α)

include h

theorem takeWhile_ne_append : (front ++ ([sep] ++ rest)).takeWhile (· ≠ sep) = front := by
  rw [List.takeWhile_append_of_pos fun c hc => by simpa using ne_of_mem_of_not_mem hc h,
    List.singleton_append, List.takeWhile_cons_of_neg (by simp), List.append_nil]

theorem dropWhile_ne_append : (front ++ ([sep] ++ rest)).dropWhile (· ≠ sep) = [sep] ++ rest := by
  rw [List.dropWhile_append_of_pos fun c hc => by simpa using ne_of_mem_of_not_mem hc h,
    List.singleton_append, List.dropWhile_cons_of_neg (by simp)]

end Separated

namespace Decimal

theorem toList_toString (n : Nat) : (toString n).toList = Nat.toDigits 10 n := by
  rw [Nat.toString_eq_repr, Nat.toList_repr]

theorem isDigit_of_mem_toString {n : Nat} {c : Char} (hc : c ∈ (toString n).toList) :
    c.isDigit := by
  rw [toList_toString] at hc
  exact Nat.isDigit_of_mem_toDigits (Nat.succ_pos 9) (Nat.le_refl 10) hc

theorem toString_toList_ne_nil (n : Nat) : (toString n).toList ≠ [] := by
  rw [toList_toString]
  exact Nat.toDigits_ne_nil

theorem isBlank_of_isDigit {c : Char} (hc : c.isDigit) : Text.isBlank c = false := by
  rw [Char.isDigit_iff_toNat] at hc
  simp only [Char.reduceToNat] at hc
  simp only [Text.isBlank, Bool.or_eq_false_iff, Bool.and_eq_false_iff, decide_eq_false_iff_not]
  omega

theorem readNat?_toString (n : Nat) : readNat? (toString n).toList = some n := by
  have hne : (toString n).toList.isEmpty = false := by
    exact List.isEmpty_eq_false_iff.mpr (toString_toList_ne_nil n)
  have hall : (toString n).toList.all Char.isDigit = true :=
    List.all_eq_true.mpr fun c => isDigit_of_mem_toString
  have hvalue : value (toString n).toList = n := by
    rw [toList_toString]
    exact Nat.ofDigitChars_ten_toDigits
  rw [readNat?, hne, hall, hvalue]
  rfl

/-- A negative number is written with a sign and then the digits of its absolute value; any other
number is written like a natural one. -/
theorem toList_toString_int (i : Int) :
    (toString i).toList =
      if i < 0 then '-' :: (toString i.natAbs).toList else (toString i.natAbs).toList := by
  cases i with
  | ofNat n => rfl
  | negSucc n =>
    rw [if_pos (Int.negSucc_lt_zero n)]
    show ("-" ++ (n + 1).repr).toList = _
    rw [String.toList_append]
    rfl

theorem readInt?_toString (i : Int) : readInt? (toString i).toList = some i := by
  rw [toList_toString_int]
  split
  · rw [readInt?, readNat?_toString]
    show some (-(i.natAbs : Int)) = some i
    congr 1
    omega
  · -- the first digit is not a sign
    have hdigits := readNat?_toString i.natAbs
    have hfirst : ∀ c ∈ (toString i.natAbs).toList, c.isDigit := fun _ => isDigit_of_mem_toString
    generalize (toString i.natAbs).toList = digits at hdigits hfirst
    have hread : readInt? digits = (readNat? digits).map fun n : Nat => (n : Int) := by
      unfold readInt?
      split
      · exact absurd (hfirst '-' List.mem_cons_self) (by decide)
      · exact absurd (hfirst '+' List.mem_cons_self) (by decide)
      · cases readNat? digits <;> rfl
    rw [hread, hdigits, Option.map_some]
    congr 1
    omega

/-! ### In front of other text

A number ends where the digits do, so it is read back from the front of a text that goes on with
anything else. -/

/-- Reads the number at the beginning of a text, and gives what follows. -/
def takeNat (text : List Char) : Option (Nat × List Char) :=
  (readNat? (text.takeWhile Char.isDigit)).map fun n => (n, text.dropWhile Char.isDigit)

/-- Reads the number with an optional minus at the beginning of a text, and gives what follows. -/
def takeInt : List Char → Option (Int × List Char)
  | '-' :: text => (takeNat text).map fun (n, rest) => (-(n : Int), rest)
  | text => (takeNat text).map fun (n, rest) => ((n : Int), rest)

section Prefix

variable {rest : List Char} (hrest : ∀ c ∈ rest.head?, c.isDigit = false)

include hrest

theorem takeNat_append (n : Nat) : takeNat ((toString n).toList ++ rest) = some (n, rest) := by
  have hdigits : ∀ c ∈ (toString n).toList, c.isDigit := fun _ => isDigit_of_mem_toString
  have hstop : rest.takeWhile Char.isDigit = [] ∧ rest.dropWhile Char.isDigit = rest := by
    cases rest with
    | nil => exact ⟨rfl, rfl⟩
    | cons c rest =>
      have hc := hrest c rfl
      exact ⟨List.takeWhile_cons_of_neg (by simp [hc]), List.dropWhile_cons_of_neg (by simp [hc])⟩
  rw [takeNat, List.takeWhile_append_of_pos hdigits, List.dropWhile_append_of_pos hdigits,
    hstop.1, hstop.2, List.append_nil, readNat?_toString, Option.map_some]

theorem takeInt_append (i : Int) : takeInt ((toString i).toList ++ rest) = some (i, rest) := by
  rw [toList_toString_int]
  split
  · rw [List.cons_append, takeInt, takeNat_append hrest, Option.map_some]
    have habs : -(i.natAbs : Int) = i := by omega
    exact congrArg (fun j => some (j, rest)) habs
  · -- the first digit is not a sign
    obtain ⟨c, cs, hcs⟩ := List.exists_cons_of_ne_nil (toString_toList_ne_nil i.natAbs)
    have hc : c.isDigit := isDigit_of_mem_toString (hcs ▸ List.mem_cons_self)
    have htake := takeNat_append hrest i.natAbs
    rw [hcs, List.cons_append] at htake ⊢
    rw [takeInt, htake, Option.map_some]
    · have habs : (i.natAbs : Int) = i := by omega
      exact congrArg (fun j => some (j, rest)) habs
    · rintro _ ⟨⟩
      exact absurd hc (by decide)

end Prefix

end Decimal

end MiniC
