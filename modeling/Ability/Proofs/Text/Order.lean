import Ability.Proofs.Table
import Mathlib.Data.String.Basic

/-! The order of texts is that of their bytes in UTF-8, so what ascends by key is shown in the order of the bytes. -/

namespace Ability

/-- The bytes of a text in UTF-8. -/
def utf8 (s : String) : List UInt8 := s.toUTF8.data.toList

theorem utf8_eq (s : String) : utf8 s = s.toList.flatMap String.utf8EncodeChar := by
  rw [utf8, String.toUTF8_eq_toByteArray, ← String.ofList_toList (s := s), String.toByteArray_ofList,
    String.toList_ofList]
  simp [List.utf8Encode]

section Bytes

variable {i j : Nat}

theorem byte_lt_byte (hi : i < 256) (hj : j < 256) : UInt8.ofNat i < UInt8.ofNat j ↔ i < j := by
  rw [UInt8.lt_iff_toNat_lt, UInt8.toNat_ofNat', UInt8.toNat_ofNat', Nat.mod_eq_of_lt hi, Nat.mod_eq_of_lt hj]

theorem byte_eq_byte (hi : i < 256) (hj : j < 256) : UInt8.ofNat i = UInt8.ofNat j ↔ i = j := by
  rw [← UInt8.toNat_inj, UInt8.toNat_ofNat', UInt8.toNat_ofNat', Nat.mod_eq_of_lt hi, Nat.mod_eq_of_lt hj]

end Bytes

/-- The bytes of different characters differ at some place, whatever follows them. -/
theorem utf8EncodeChar_lt {c d : Char} (h : c < d) (x y : List UInt8) :
    String.utf8EncodeChar c ++ x < String.utf8EncodeChar d ++ y := by
  have hlt : c.val.toNat < d.val.toNat := UInt32.lt_iff_toNat_lt.1 h
  have hd : d.val.toNat < 0x110000 := by rcases d.valid with hd | hd <;> omega
  unfold String.utf8EncodeChar
  generalize c.val.toNat = m at *
  generalize d.val.toNat = n at *
  -- Every further byte takes six bits, so the leading one is left by dividing by 64 once for each of them.
  have hm : m / 4096 = m / 64 / 64 ∧ m / 262144 = m / 4096 / 64 ∧ m / 262144 % 8 = m / 262144 := by omega
  have hn : n / 4096 = n / 64 / 64 ∧ n / 262144 = n / 4096 / 64 ∧ n / 262144 % 8 = n / 262144 := by omega
  dsimp only
  split_ifs <;>
    simp (disch := omega) only [List.cons_append, List.nil_append, List.cons_lt_cons_iff, byte_lt_byte, byte_eq_byte] <;>
    omega

theorem flatMap_utf8EncodeChar_lt {cs ds : List Char} (h : cs < ds) :
    cs.flatMap String.utf8EncodeChar < ds.flatMap String.utf8EncodeChar := by
  induction h with
  | @nil d ds =>
    obtain ⟨b, bs, hb⟩ := List.exists_cons_of_ne_nil (String.utf8EncodeChar_ne_nil (c := d))
    rw [List.flatMap_nil, List.flatMap_cons, hb]
    exact .nil
  | rel h => exact utf8EncodeChar_lt h _ _
  | cons _ ih =>
    rw [List.flatMap_cons, List.flatMap_cons]
    exact List.append_left_lt ih

theorem utf8_lt_utf8 {s t : String} : utf8 s < utf8 t ↔ s < t := by
  rw [utf8_eq, utf8_eq, String.lt_iff_toList_lt]
  refine ⟨fun h => ?_, flatMap_utf8EncodeChar_lt⟩
  rcases lt_trichotomy s.toList t.toList with hlt | heq | hgt
  · exact hlt
  · rw [heq] at h
    exact absurd h (List.lt_irrefl _)
  · exact absurd h (List.lt_asymm (flatMap_utf8EncodeChar_lt hgt))

theorem Table.keys_utf8_ascending {α : Type} (t : Table String α) : t.keys.Pairwise fun a b => utf8 a < utf8 b :=
  t.keys_ascending.imp utf8_lt_utf8.2

end Ability
