import Mathlib.Tactic.SplitIfs
import TemplateLogging.Text.Utf8

namespace TemplateLogging.Text

theorem toNat_val_lt (c : Char) : c.val.toNat < 1114112 := by
  have hvalid := c.valid
  simp only [UInt32.isValidChar, Nat.isValidChar] at hvalid
  omega

theorem ofNat_cons_lt_iff {m n : Nat} (hm : m < 256) (hn : n < 256) {as bs : List UInt8} :
    UInt8.ofNat m :: as < UInt8.ofNat n :: bs ↔ m < n ∨ m = n ∧ as < bs := by
  rw [List.cons_lt_cons_iff, UInt8.lt_iff_toNat_lt, ← UInt8.toNat_inj, UInt8.toNat_ofNat',
    UInt8.toNat_ofNat', Nat.mod_eq_of_lt hm, Nat.mod_eq_of_lt hn]

theorem utf8EncodeChar_append_lt {c d : Char} (h : c < d) (as bs : List UInt8) :
    String.utf8EncodeChar c ++ as < String.utf8EncodeChar d ++ bs := by
  have hlt : c.val.toNat < d.val.toNat := h
  have hmax := toNat_val_lt d
  simp only [String.utf8EncodeChar]
  generalize c.val.toNat = m at hlt
  generalize d.val.toNat = n at hlt hmax
  -- The digits of a code point to the base 64.
  have hdigits : ∀ k < 1114112, k / 262144 % 8 = k / 262144 ∧ k / 4096 / 64 = k / 262144 ∧
      k / 64 / 64 = k / 4096 := by omega
  have hm := hdigits m (Nat.lt_trans hlt hmax)
  have hn := hdigits n hmax
  split_ifs <;>
    simp (disch := omega) only [List.cons_append, List.nil_append, ofNat_cons_lt_iff] <;>
    omega

theorem utf8Bytes_lt {cs ds : List Char} (h : cs < ds) : utf8Bytes cs < utf8Bytes ds := by
  induction h with
  | @nil d ds =>
      rw [utf8Bytes, utf8Bytes, List.flatMap_cons]
      cases hd : String.utf8EncodeChar d with
      | nil => simp at hd
      | cons b bs => exact List.Lex.nil
  | cons _ ih => exact List.append_left_lt ih
  | rel h => exact utf8EncodeChar_append_lt h _ _

theorem utf8Bytes_lt_iff {cs ds : List Char} : utf8Bytes cs < utf8Bytes ds ↔ cs < ds := by
  constructor
  · intro h
    rcases Std.lt_trichotomy cs ds with hlt | rfl | hgt
    · exact hlt
    · exact absurd h (List.lt_irrefl _)
    · exact absurd h (List.lt_asymm (utf8Bytes_lt hgt))
  · exact utf8Bytes_lt

end TemplateLogging.Text
