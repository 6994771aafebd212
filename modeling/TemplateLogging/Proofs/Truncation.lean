import TemplateLogging.Directive.Truncate

namespace TemplateLogging.Directive

/-- The longest part of a text from the front that has at most so many units. -/
structure LongestFit (budget : Nat) (cs part : List Char) : Prop where
  start : part <+: cs
  fits : (encode16 part).length ≤ budget
  longest : ∀ other, other <+: cs → (encode16 other).length ≤ budget → other <+: part

theorem longestFit_takeUnits16 (budget : Nat) (cs : List Char) :
    LongestFit budget cs (takeUnits16 budget cs) := by
  induction cs generalizing budget with
  | nil => exact ⟨List.prefix_refl _, Nat.zero_le _, fun _ hother _ => hother⟩
  | cons c cs ih =>
      rw [takeUnits16, ← length_utf16]
      split
      · rename_i hfits
        obtain ⟨hstart, hrest, hlongest⟩ := ih (budget - (utf16 c).length)
        refine ⟨List.cons_prefix_cons.mpr ⟨rfl, hstart⟩, ?_, ?_⟩
        · rw [length_encode16_cons]
          omega
        · intro other hother hle
          rcases List.prefix_cons_iff.mp hother with rfl | ⟨other, rfl, htail⟩
          · exact List.nil_prefix
          · rw [length_encode16_cons] at hle
            exact List.cons_prefix_cons.mpr ⟨rfl, hlongest other htail (by omega)⟩
      · rename_i hover
        refine ⟨List.nil_prefix, Nat.zero_le _, ?_⟩
        intro other hother hle
        rcases List.prefix_cons_iff.mp hother with rfl | ⟨other, rfl, -⟩
        · exact List.prefix_refl _
        · rw [length_encode16_cons] at hle
          omega

namespace LongestFit

variable {budget : Nat} {cs part : List Char}

/-- A text that does not fit goes on after the part, with a character for which there is no room.
That leaves a unit at most, and none if the character is not a surrogate pair. -/
theorem exists_next (h : LongestFit budget cs part) (hlong : budget < (encode16 cs).length) :
    ∃ next rest, cs = part ++ next :: rest ∧ ((encode16 part).length = budget ∨
      (encode16 part).length + 1 = budget ∧ IsSurrogatePair (utf16 next)) := by
  obtain ⟨rest, rfl⟩ := h.start
  have hfits := h.fits
  cases rest with
  | nil =>
      rw [List.append_nil] at hlong
      omega
  | cons next rest =>
      refine ⟨next, rest, rfl, ?_⟩
      -- If the next character fitted, the part would not be the longest.
      have hroom : budget < (encode16 (part ++ [next])).length := by
        refine Nat.lt_of_not_le fun hle => ?_
        have hprefix := h.longest (part ++ [next]) ⟨rest, List.append_cons part next rest ▸ rfl⟩ hle
        have hlength := hprefix.length_le
        rw [List.length_append, List.length_singleton] at hlength
        omega
      rw [length_encode16_append, length_encode16_cons] at hroom
      have hnil : (encode16 []).length = 0 := rfl
      rcases utf16_cases next with hone | ⟨htwo, hpair⟩
      · omega
      · by_cases hfull : (encode16 part).length = budget
        · exact Or.inl hfull
        · exact Or.inr ⟨by omega, hpair⟩

end LongestFit

/-- A text that is too long is cut to the most whole characters that there is room for, and an
ellipsis needs three units of the room. -/
theorem truncate_cases (s : String) (maxLen : Nat) (addEllipsis : Bool) :
    (encode16 (truncate s maxLen addEllipsis).toList).length ≤ maxLen ∧
      ((encode16 s.toList).length ≤ maxLen ∧ truncate s maxLen addEllipsis = s ∨
        maxLen < (encode16 s.toList).length ∧ ∃ budget part next rest,
          (addEllipsis = true ∧ 3 < maxLen ∧ budget = maxLen - 3 ∧
              truncate s maxLen addEllipsis = String.ofList part ++ "..." ∨
            ¬ (addEllipsis = true ∧ 3 < maxLen) ∧ budget = maxLen ∧
              truncate s maxLen addEllipsis = String.ofList part) ∧
          LongestFit budget s.toList part ∧ s.toList = part ++ next :: rest ∧
            ((encode16 part).length = budget ∨
              (encode16 part).length + 1 = budget ∧ IsSurrogatePair (utf16 next))) := by
  rw [truncate, ← length_encode16]
  by_cases hle : (encode16 s.toList).length ≤ maxLen
  · rw [if_pos hle]
    exact ⟨hle, Or.inl ⟨hle, rfl⟩⟩
  · have hlong : maxLen < (encode16 s.toList).length := Nat.lt_of_not_le hle
    rw [if_neg hle]
    by_cases hroom : addEllipsis = true ∧ 3 < maxLen
    · have hcut := longestFit_takeUnits16 (maxLen - 3) s.toList
      obtain ⟨next, rest, hnext, hshort⟩ := hcut.exists_next (by omega)
      rw [if_pos hroom]
      refine ⟨?_, Or.inr ⟨hlong, _, _, next, rest, Or.inl ⟨hroom.1, hroom.2, rfl, rfl⟩, hcut, hnext,
        hshort⟩⟩
      have hfits := hcut.fits
      have hdots : (encode16 ellipsis.toList).length = 3 := by decide
      rw [String.toList_append, String.toList_ofList, length_encode16_append, hdots]
      omega
    · have hcut := longestFit_takeUnits16 maxLen s.toList
      obtain ⟨next, rest, hnext, hshort⟩ := hcut.exists_next hlong
      rw [if_neg hroom]
      refine ⟨?_, Or.inr ⟨hlong, _, _, next, rest, Or.inr ⟨hroom, rfl, rfl⟩, hcut, hnext, hshort⟩⟩
      rw [String.toList_ofList]
      exact hcut.fits

example : truncate "ab😀cde" 6 true = "ab..." := by decide

end TemplateLogging.Directive
