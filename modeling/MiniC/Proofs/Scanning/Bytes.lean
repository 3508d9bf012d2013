import Mathlib.Logic.Function.Basic
import MiniC.Token.Scan

/-!
# The bytes of a source

The scanner reads bytes. A text has as many as its size in UTF-8 and is determined by them; those
of an ASCII text are its characters.

* `octets_injective`, `length_octets`, `octets_append`: the bytes of any text
* `Ascii`: a text of ASCII characters, which is read as those characters
-/

namespace MiniC

/-! ## Any text

A text is determined by its bytes, and bytes of texts put together are put together. -/

theorem toList_loop_eq (bs : ByteArray) (i : Nat) (r : List UInt8) :
    ByteArray.toList.loop bs i r = r.reverse ++ bs.data.toList.drop i := by
  fun_induction ByteArray.toList.loop bs i r with
  | case1 i r h ih =>
    have hi : i < bs.data.toList.length := by simpa using h
    rw [ih, List.drop_eq_getElem_cons hi]
    simp [ByteArray.get!, h]
  | case2 i r h =>
    have hi : bs.data.toList.length ≤ i := by simpa using h
    simp [List.drop_eq_nil_of_le hi]

theorem toList_eq_data (bs : ByteArray) : bs.toList = bs.data.toList := by
  rw [ByteArray.toList, toList_loop_eq, List.reverse_nil, List.nil_append, List.drop_zero]

theorem length_octets (source : String) : (octets source).length = source.utf8ByteSize := by
  rw [octets, List.length_map, toList_eq_data]
  rfl

theorem octets_append (a b : String) : octets (a ++ b) = octets a ++ octets b := by
  simp [octets, toList_eq_data]

/-- A text is determined by its bytes. -/
theorem octets_injective : Function.Injective octets := by
  intro s s' h
  have hbyte : Function.Injective Char.ofUInt8 := by
    intro a b hab
    have hval : a.toUInt32.toNat = b.toUInt32.toNat := congrArg (fun c => c.val.toNat) hab
    simpa [UInt8.toNat_inj] using hval
  have hlist := (List.map_inj_right fun _ _ hab => hbyte hab).mp h
  rw [toList_eq_data, toList_eq_data, Array.toList_inj] at hlist
  exact String.toByteArray_inj.mp (ByteArray.ext hlist)

/-! ## ASCII texts

For a text of ASCII characters bytes and characters are the same, so a literal can be scanned by its
characters. -/

theorem utf8Encode_ascii {cs : List Char} (h : ∀ c ∈ cs, c.toNat < 128) :
    cs.utf8Encode.data.toList = cs.map fun c => c.val.toUInt8 := by
  induction cs with
  | nil => simp
  | cons c cs ih =>
    have hsize : c.utf8Size = 1 := by
      rw [Char.utf8Size_eq_one_iff, UInt32.le_iff_toNat_le]
      exact Nat.le_of_lt_succ (h c (by simp))
    rw [List.utf8Encode_cons, List.utf8Encode_singleton, String.utf8EncodeChar_eq_singleton hsize]
    simp [ih fun c hc => h c (by simp [hc])]

theorem ofUInt8_ascii {c : Char} (h : c.toNat < 128) : Char.ofUInt8 c.val.toUInt8 = c := by
  refine Char.ext (UInt32.toNat_inj.mp ?_)
  have hascii : c.val.toNat < 128 := h
  show c.val.toUInt8.toUInt32.toNat = c.val.toNat
  rw [UInt8.toNat_toUInt32, UInt32.toNat_toUInt8]
  omega

/-- The bytes of an ASCII text are its characters. -/
theorem octets_ofList {cs : List Char} (h : ∀ c ∈ cs, c.toNat < 128) :
    octets (String.ofList cs) = cs := by
  rw [octets, toList_eq_data, String.toUTF8_eq_toByteArray, String.toByteArray_ofList,
    utf8Encode_ascii h, List.map_map]
  exact (List.map_congr_left fun c hc => ofUInt8_ascii (h c hc)).trans (List.map_id cs)

/-- The text consists of these characters, and all of them are ASCII. `⟨rfl, rfl⟩` proves it of a
literal, and no encoding is computed for that. -/
structure Ascii (s : String) (cs : List Char) : Prop where
  encodes : s.toByteArray = cs.utf8Encode
  small : (cs.all fun c => c.toNat < 128) = true

namespace Ascii

variable {s s' : String} {cs cs' : List Char}

theorem append (h : Ascii s cs) (h' : Ascii s' cs') : Ascii (s ++ s') (cs ++ cs') where
  encodes := by rw [String.toByteArray_append, h.encodes, h'.encodes, List.utf8Encode_append]
  small := by rw [List.all_append, h.small, h'.small, Bool.and_self]

theorem octets_eq (h : Ascii s cs) : octets s = cs := by
  have hs : s = String.ofList cs :=
    String.toByteArray_inj.mp (h.encodes.trans String.toByteArray_ofList.symm)
  rw [hs, octets_ofList (by simpa using h.small)]

theorem scan_eq (h : Ascii s cs) : scan s = Cursor.tokens ⟨cs, ⟨0, 0⟩⟩ := by
  rw [scan, h.octets_eq]

theorem utf8ByteSize_eq (h : Ascii s cs) : s.utf8ByteSize = cs.length := by
  rw [← length_octets, h.octets_eq]

end Ascii

end MiniC
