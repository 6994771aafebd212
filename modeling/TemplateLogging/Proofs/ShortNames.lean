import Mathlib.Data.Nat.Digits.Lemmas
import TemplateLogging.Renaming.Basic

namespace TemplateLogging

theorem foldl_eq_ofDigits {α : Type} (b : Nat) (f : α → Nat) (xs : List α) :
    xs.foldl (fun n x => b * n + f x) 0 = Nat.ofDigits b (xs.reverse.map f) := by
  induction xs using List.reverseRecOn with
  | nil => rfl
  | append_singleton xs x ih =>
      rw [List.foldl_concat, ih, List.reverse_concat, List.map_cons, Nat.ofDigits_cons]
      exact Nat.add_comm _ _

namespace Base36

variable {n : Nat} {c : Char} {ds : List Char}

def IsDigit (c : Char) : Prop :=
  '0' ≤ c ∧ c ≤ '9' ∨ 'a' ≤ c ∧ c ≤ 'z'

instance (c : Char) : Decidable (IsDigit c) :=
  inferInstanceAs (Decidable ('0' ≤ c ∧ c ≤ '9' ∨ 'a' ≤ c ∧ c ≤ 'z'))

/-- Digits that begin with a zero only where there is no other digit. -/
structure IsNumeral (ds : List Char) : Prop where
  nonempty : ds ≠ []
  isDigit : ∀ c ∈ ds, IsDigit c
  front : ds.head? = some '0' → ds = ['0']

theorem isDigit_digitChar : ∀ d < 36, IsDigit (digitChar d) := by
  decide

theorem digitValue_digitChar : ∀ d < 36, digitValue (digitChar d) = d := by
  decide

theorem IsDigit.exists_digitChar (h : IsDigit c) : ∃ d < 36, digitChar d = c := by
  rcases h with ⟨hlow, hhigh⟩ | ⟨hlow, hhigh⟩
  · have hlow : 48 ≤ c.toNat := hlow
    have hhigh : c.toNat ≤ 57 := hhigh
    refine ⟨c.toNat - 48, by omega, ?_⟩
    rw [digitChar, if_pos (by omega)]
    change Char.ofNat (48 + (c.toNat - 48)) = c
    rw [Nat.add_sub_cancel' hlow, Char.ofNat_toNat]
  · have hlow : 97 ≤ c.toNat := hlow
    have hhigh : c.toNat ≤ 122 := hhigh
    refine ⟨c.toNat - 97 + 10, by omega, ?_⟩
    rw [digitChar, if_neg (by omega), Nat.add_sub_cancel]
    change Char.ofNat (97 + (c.toNat - 97)) = c
    rw [Nat.add_sub_cancel' hlow, Char.ofNat_toNat]

theorem IsDigit.digitValue_lt (h : IsDigit c) : digitValue c < 36 := by
  obtain ⟨d, hd, rfl⟩ := h.exists_digitChar
  rw [digitValue_digitChar d hd]
  exact hd

theorem IsDigit.digitChar_digitValue (h : IsDigit c) : digitChar (digitValue c) = c := by
  obtain ⟨d, hd, rfl⟩ := h.exists_digitChar
  rw [digitValue_digitChar d hd]

theorem value_eq_ofDigits (ds : List Char) :
    value ds = Nat.ofDigits 36 (ds.reverse.map digitValue) :=
  foldl_eq_ofDigits 36 digitValue ds

theorem digits_zero : digits 0 = ['0'] := by
  rw [digits]
  rfl

theorem digits_eq_map (hn : n ≠ 0) : digits n = (Nat.digits 36 n).reverse.map digitChar := by
  fun_induction digits n with
  | case1 n hlt => simp [Nat.digits_of_lt 36 n hn hlt]
  | case2 n hge ih =>
      have hdiv : n / 36 ≠ 0 := by omega
      rw [ih hdiv, Nat.digits_def' (by decide) (Nat.pos_of_ne_zero hn)]
      simp

theorem value_digits (n : Nat) : value (digits n) = n := by
  by_cases hn : n = 0
  · rw [hn, digits_zero]
    rfl
  · have hback : (Nat.digits 36 n).map (digitValue ∘ digitChar) = (Nat.digits 36 n).map id := by
      apply List.map_congr_left
      intro d hd
      exact digitValue_digitChar d (Nat.digits_lt_base (by decide) hd)
    rw [value_eq_ofDigits, digits_eq_map hn, ← List.map_reverse, List.reverse_reverse,
      List.map_map, hback, List.map_id, Nat.ofDigits_digits]

theorem digits_injective : Function.Injective digits :=
  Function.LeftInverse.injective value_digits

theorem head?_digits_eq_iff (n : Nat) : (digits n).head? = some '0' ↔ n = 0 := by
  constructor
  · intro hfront
    by_contra hn
    have hne : Nat.digits 36 n ≠ [] := Nat.digits_ne_nil_iff_ne_zero.mpr hn
    have hlt : (Nat.digits 36 n).getLast hne < 36 :=
      Nat.digits_lt_base (by decide) (List.getLast_mem hne)
    rw [digits_eq_map hn, List.head?_map, List.head?_reverse, List.getLast?_eq_some_getLast hne,
      Option.map_some, Option.some.injEq] at hfront
    have hvalue := digitValue_digitChar _ hlt
    rw [hfront] at hvalue
    exact Nat.getLast_digit_ne_zero 36 hn hvalue.symm
  · rintro rfl
    rw [digits_zero]
    rfl

theorem isNumeral_digits (n : Nat) : IsNumeral (digits n) := by
  by_cases hn : n = 0
  · rw [hn, digits_zero]
    exact ⟨by decide, List.forall_mem_singleton.mpr (by decide), fun _ => rfl⟩
  · refine ⟨?_, ?_, ?_⟩
    · rw [digits_eq_map hn]
      simpa using Nat.digits_ne_nil_iff_ne_zero.mpr hn
    · intro c hc
      rw [digits_eq_map hn, List.mem_map] at hc
      obtain ⟨d, hd, rfl⟩ := hc
      exact isDigit_digitChar d (Nat.digits_lt_base (by decide) (List.mem_reverse.mp hd))
    · intro hfront
      exact absurd ((head?_digits_eq_iff n).mp hfront) hn

theorem IsNumeral.natDigits_value (h : IsNumeral ds) (hfront : ds.head? ≠ some '0') :
    Nat.digits 36 (value ds) = ds.reverse.map digitValue := by
  rw [value_eq_ofDigits]
  apply Nat.digits_ofDigits 36 (by decide)
  · intro d hd
    obtain ⟨c, hc, rfl⟩ := List.mem_map.mp hd
    exact (h.isDigit c (List.mem_reverse.mp hc)).digitValue_lt
  · intro hne hlast
    rw [List.getLast_map, List.getLast_reverse] at hlast
    have hhead := (h.isDigit _ (List.head_mem h.nonempty)).digitChar_digitValue
    rw [hlast] at hhead
    exact hfront ((List.head?_eq_some_head h.nonempty).trans (congrArg some hhead.symm))

theorem IsNumeral.digits_value (h : IsNumeral ds) : digits (value ds) = ds := by
  -- The zero stands apart because division leaves no digit of it.
  by_cases hfront : ds.head? = some '0'
  · rw [h.front hfront]
    exact digits_zero
  · have hdigits := h.natDigits_value hfront
    have hvalue : value ds ≠ 0 := by
      rw [← Nat.digits_ne_nil_iff_ne_zero (b := 36), hdigits]
      simpa using h.nonempty
    have hback : ds.map (digitChar ∘ digitValue) = ds.map id := by
      apply List.map_congr_left
      intro c hc
      exact (h.isDigit c hc).digitChar_digitValue
    rw [digits_eq_map hvalue, hdigits, ← List.map_reverse, List.reverse_reverse, List.map_map,
      hback, List.map_id]

theorem digits_eq_iff : digits n = ds ↔ IsNumeral ds ∧ value ds = n := by
  constructor
  · rintro rfl
    exact ⟨isNumeral_digits n, value_digits n⟩
  · rintro ⟨hds, rfl⟩
    exact hds.digits_value

theorem length_digits_le_iff {k : Nat} (hk : 0 < k) : (digits n).length ≤ k ↔ n < 36 ^ k := by
  by_cases hn : n = 0
  · rw [hn, digits_zero]
    have hpow : 0 < 36 ^ k := Nat.pow_pos (by decide)
    exact iff_of_true hk hpow
  · rw [digits_eq_map hn, List.length_map, List.length_reverse]
    exact Nat.digits_length_le_iff (by decide) n

end Base36

namespace Renaming

variable {as bs : List UInt8}

theorem numberOfBytes_eq_ofDigits (bytes : List UInt8) :
    numberOfBytes bytes = Nat.ofDigits 256 (bytes.reverse.map UInt8.toNat) :=
  foldl_eq_ofDigits 256 UInt8.toNat bytes

theorem lt_of_mem_map_toNat {d : Nat} (h : d ∈ as.map UInt8.toNat) : d < 256 := by
  obtain ⟨b, -, rfl⟩ := List.mem_map.mp h
  exact b.toNat_lt

theorem numberOfBytes_lt (bytes : List UInt8) : numberOfBytes bytes < 256 ^ bytes.length := by
  have hlt := Nat.ofDigits_lt_base_pow_length (by decide)
    fun d (hd : d ∈ bytes.reverse.map UInt8.toNat) => lt_of_mem_map_toNat hd
  rwa [← numberOfBytes_eq_ofDigits, List.length_map, List.length_reverse] at hlt

theorem eq_of_numberOfBytes_eq (hlength : as.length = bs.length)
    (h : numberOfBytes as = numberOfBytes bs) : as = bs := by
  rw [numberOfBytes_eq_ofDigits, numberOfBytes_eq_ofDigits] at h
  have hdigits := Nat.ofDigits_inj_of_len_eq (by decide) (by simpa using hlength)
    (fun d hd => lt_of_mem_map_toNat hd) (fun d hd => lt_of_mem_map_toNat hd) h
  exact List.reverse_injective (List.map_injective_iff.mpr (fun _ _ => UInt8.toNat_inj.mp) hdigits)

theorem length_digits_numberOfBytes_le (hfive : as.length = 5) :
    (Base36.digits (numberOfBytes as)).length ≤ 8 := by
  have hlt := numberOfBytes_lt as
  rw [hfive] at hlt
  exact (Base36.length_digits_le_iff (by decide)).mpr (Nat.lt_trans hlt (by decide))

/-- The text of a number in base 36 is the numeral with this value, so numbers have different texts
and only that of zero begins with a zero. Whatever 32 bytes keys are hashed to, a short name is `x`
with one to eight digits, and names are the same exactly if the first five bytes are. -/
theorem hashedNameWith_digests (hash : List UInt8 → List UInt8)
    (hlength : ∀ message, (hash message).length = 32) :
    (∀ n ds, Base36.digits n = ds ↔ Base36.IsNumeral ds ∧ Base36.value ds = n) ∧
    (∀ n, (Base36.digits n).head? = some '0' ↔ n = 0) ∧
    (∀ m n, Base36.digits m = Base36.digits n ↔ m = n) ∧
    (∀ key, ∃ ds, hashedNameWith hash key = String.ofList ('x' :: ds) ∧
      (∀ c ∈ ds, Base36.IsDigit c) ∧ 1 ≤ ds.length ∧ ds.length ≤ 8) ∧
    ∀ key key', hashedNameWith hash key = hashedNameWith hash key' ↔
      (hash (Text.utf8Bytes key.toList)).take 5 = (hash (Text.utf8Bytes key'.toList)).take 5 := by
  have hfive : ∀ message, ((hash message).take 5).length = 5 := by
    intro message
    rw [List.length_take, hlength]
    rfl
  refine ⟨fun n ds => Base36.digits_eq_iff, Base36.head?_digits_eq_iff,
    fun m n => Base36.digits_injective.eq_iff, ?_, ?_⟩
  · intro key
    have hnumeral := Base36.isNumeral_digits
      (numberOfBytes ((hash (Text.utf8Bytes key.toList)).take 5))
    exact ⟨_, rfl, hnumeral.isDigit, List.length_pos_iff.mpr hnumeral.nonempty,
      length_digits_numberOfBytes_le (hfive _)⟩
  · intro key key'
    constructor
    · intro h
      have hchars := String.ofList_injective h
      have hnumber := Base36.digits_injective (List.cons_injective hchars)
      exact eq_of_numberOfBytes_eq ((hfive _).trans (hfive _).symm) hnumber
    · intro h
      simp only [hashedNameWith, h]

/-- Two keys of which the digests begin with `e97a8181b2` and `19fd033d91`. -/
theorem hashedNameWith_digests_sha256 :
    (∀ message, (Sha256.digest message).length = 32) ∧
      hashedName "soyloggingfunction-" = "x1f9z372p" ∧
      hashedName "soylog" ≠ hashedName "soyloggingfunction-" := by
  have hfirst : (Sha256.digest (Text.utf8Bytes "soylog".toList)).take 5 =
      [233, 122, 129, 182, 240] := by
    decide +kernel
  have hsecond : (Sha256.digest (Text.utf8Bytes "soyloggingfunction-".toList)).take 5 =
      [25, 253, 3, 61, 145] := by
    decide +kernel
  obtain ⟨hnumeral, -, -, -, hsame⟩ := hashedNameWith_digests Sha256.digest Sha256.length_digest
  have hdigits := (hnumeral 111619030417 ['1', 'f', '9', 'z', '3', '7', '2', 'p']).mpr
    ⟨⟨by decide, by simp [Base36.IsDigit], by decide⟩, by decide⟩
  refine ⟨Sha256.length_digest, ?_, ?_⟩
  · have hnumber : numberOfBytes [25, 253, 3, 61, 145] = 111619030417 := by
      decide
    simp only [hashedName, hashedNameWith, hsecond, hnumber, hdigits]
  · intro h
    have hbytes := (hsame _ _).mp h
    rw [hfirst, hsecond] at hbytes
    exact absurd hbytes (by decide)

end Renaming

end TemplateLogging
