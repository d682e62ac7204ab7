import Fluxion.Token.Lexer
import Mathlib.Tactic

/-!
# Bytes of ASCII texts

The bytes of a text are the encodings of its characters in order, one byte for a character of ASCII. So
ASCII bytes and texts that consist of ASCII characters determine each other.
-/

namespace Fluxion.Utf8

theorem toList_loop (bs : ByteArray) (i : ℕ) (acc : List UInt8) :
    ByteArray.toList.loop bs i acc = acc.reverse ++ bs.data.toList.drop i := by
  induction i, acc using ByteArray.toList.loop.induct bs with
  | case1 i acc hi ih =>
    have hlt : i < bs.data.toList.length := by
      rw [Array.length_toList]
      exact hi
    have hget : bs.get! i = bs.data.toList[i] := by
      rw [Array.getElem_toList]
      exact getElem!_pos bs.data i hi
    rw [ByteArray.toList.loop, if_pos hi, ih, List.drop_eq_getElem_cons hlt, hget,
      List.reverse_cons, List.append_assoc, List.singleton_append]
  | case2 i acc hi =>
    rw [ByteArray.toList.loop, if_neg hi, List.drop_eq_nil_of_le, List.append_nil]
    rw [Array.length_toList]
    exact Nat.le_of_not_lt hi

theorem bytes_eq_data (s : String) : bytes s = s.toByteArray.data.toList := by
  rw [bytes, String.toUTF8_eq_toByteArray, ByteArray.toList, toList_loop, List.reverse_nil,
    List.nil_append, List.drop_zero]

/-- The bytes of a text are the encodings of its characters. -/
theorem bytes_eq (s : String) : bytes s = s.toList.flatMap String.utf8EncodeChar := by
  have h : s.toByteArray = s.toList.utf8Encode := by
    rw [← String.toByteArray_ofList, String.ofList_toList]
  rw [bytes_eq_data, h, List.utf8Encode, List.data_toByteArray]

theorem bytes_injective {s t : String} (h : bytes s = bytes t) : s = t := by
  rw [bytes_eq_data, bytes_eq_data] at h
  exact String.toByteArray_inj.mp (ByteArray.ext (Array.toList_inj.mp h))

@[simp] theorem bytes_append (s t : String) : bytes (s ++ t) = bytes s ++ bytes t := by
  rw [bytes_eq, bytes_eq, bytes_eq, String.toList_append, List.flatMap_append]

theorem utf8EncodeChar_of_lt {c : Char} (h : c.toNat < 128) :
    String.utf8EncodeChar c = [c.val.toUInt8] := by
  refine String.utf8EncodeChar_eq_singleton (Char.utf8Size_eq_one_iff.mpr ?_)
  rw [UInt32.le_iff_toNat_le]
  exact Nat.le_of_lt_succ h

/-- The byte of an ASCII character is among the bytes of every text with the character. -/
theorem mem_bytes_of_mem {s : String} {c : Char} (hc : c ∈ s.toList) (h : c.toNat < 128) :
    c.val.toUInt8 ∈ bytes s := by
  rw [bytes_eq, List.mem_flatMap]
  exact ⟨c, hc, by simp [utf8EncodeChar_of_lt h]⟩

theorem bytes_ofAscii {bs : List UInt8} (h : ∀ b ∈ bs, b < 128) : bytes (ofAscii bs) = bs := by
  rw [bytes_eq, ofAscii, String.toList_ofList]
  induction bs with
  | nil => rfl
  | cons b bs ih =>
    have hb : b.toNat < 128 := UInt8.lt_iff_toNat_lt.mp (h b (List.mem_cons_self ..))
    have hvalid : b.toNat.isValidChar := Or.inl (by omega)
    have hchar : (Char.ofNat b.toNat).toNat = b.toNat := by
      rw [Char.ofNat, dif_pos hvalid]
      rfl
    have hbyte : (Char.ofNat b.toNat).val.toUInt8 = b := by
      rw [← UInt8.toNat_inj, UInt32.toNat_toUInt8]
      exact (congrArg (· % 2 ^ 8) hchar).trans (Nat.mod_eq_of_lt (by omega))
    rw [List.map_cons, List.flatMap_cons, utf8EncodeChar_of_lt (by omega), hbyte,
      ih fun a ha => h a (List.mem_cons_of_mem _ ha), List.singleton_append]

/-- A text with ASCII bytes only is the text of its bytes. -/
theorem ofAscii_bytes {s : String} (h : ∀ b ∈ bytes s, b < 128) : ofAscii (bytes s) = s :=
  bytes_injective (bytes_ofAscii h)

end Fluxion.Utf8
