import Mathlib.Data.String.Basic
import TemplateLogging.Text.Utf8

namespace TemplateLogging.Text

variable {cs as bs : List Char} {s part : String} {n start stop : Nat}

theorem utf8Size_eq (cs : List Char) : utf8Size cs = String.utf8Len cs := by
  induction cs with
  | nil => rfl
  | cons c cs ih => rw [utf8Size, String.utf8Len_cons, ih, Nat.add_comm]

theorem utf8Size_toList (s : String) : utf8Size s.toList = s.utf8ByteSize := by
  rw [utf8Size_eq, String.utf8Len_toList]

theorem eq_nil_of_utf8Size (h : utf8Size cs = 0) : cs = [] := by
  cases cs with
  | nil => rfl
  | cons c cs =>
      have hpos := c.utf8Size_pos
      rw [utf8Size] at h
      omega

theorem dropBytes?_eq_some_iff :
    dropBytes? n cs = some bs ↔ ∃ as, cs = as ++ bs ∧ n = utf8Size as := by
  constructor
  · induction cs generalizing n with
    | nil =>
        cases n with
        | zero =>
            rintro ⟨⟩
            exact ⟨[], rfl, rfl⟩
        | succ n =>
            intro h
            cases h
    | cons c cs ih =>
        cases n with
        | zero =>
            rintro ⟨⟩
            exact ⟨[], rfl, rfl⟩
        | succ n =>
            rw [dropBytes?]
            split
            · rename_i hle
              intro h
              obtain ⟨as, rfl, hn⟩ := ih h
              refine ⟨c :: as, rfl, ?_⟩
              rw [utf8Size]
              omega
            · intro h
              cases h
  · rintro ⟨as, rfl, rfl⟩
    exact dropBytes?_utf8Size as bs

theorem takeBytes?_eq_some_iff :
    takeBytes? n cs = some as ↔ ∃ bs, cs = as ++ bs ∧ n = utf8Size as := by
  constructor
  · induction cs generalizing n as with
    | nil =>
        cases n with
        | zero =>
            rintro ⟨⟩
            exact ⟨[], rfl, rfl⟩
        | succ n =>
            intro h
            cases h
    | cons c cs ih =>
        cases n with
        | zero =>
            rintro ⟨⟩
            exact ⟨c :: cs, rfl, rfl⟩
        | succ n =>
            rw [takeBytes?]
            split
            · rename_i hle
              intro h
              obtain ⟨as, htake, rfl⟩ := Option.map_eq_some_iff.mp h
              obtain ⟨bs, rfl, hn⟩ := ih htake
              refine ⟨bs, rfl, ?_⟩
              rw [utf8Size]
              omega
            · intro h
              cases h
  · rintro ⟨bs, rfl, rfl⟩
    exact takeBytes?_utf8Size as bs

theorem slice?_eq_some_iff : slice? s start stop = some part ↔
    ∃ before after, s.toList = before ++ part.toList ++ after ∧ start = utf8Size before ∧
      stop = start + utf8Size part.toList := by
  rw [slice?, sliceChars?, Option.map_eq_some_iff]
  constructor
  · rintro ⟨cs, hcs, rfl⟩
    split at hcs
    · obtain ⟨rest, hdrop, htake⟩ := Option.bind_eq_some_iff.mp hcs
      obtain ⟨before, hs, rfl⟩ := dropBytes?_eq_some_iff.mp hdrop
      obtain ⟨after, rfl, hstop⟩ := takeBytes?_eq_some_iff.mp htake
      rw [String.toList_ofList]
      refine ⟨before, after, ?_, rfl, by omega⟩
      rw [hs, List.append_assoc]
    · cases hcs
  · rintro ⟨before, after, hs, rfl, rfl⟩
    refine ⟨part.toList, ?_, String.ofList_toList⟩
    rw [if_pos (Nat.le_add_right _ _), hs, List.append_assoc, dropBytes?_utf8Size]
    show takeBytes? _ _ = _
    rw [Nat.add_sub_cancel_left, takeBytes?_utf8Size]

/-- Both offsets fall between characters of the text or at its ends, in this order. -/
structure Aligned (s : String) (start stop : Nat) : Prop where
  le : start ≤ stop
  start : String.Pos.Raw.IsValid s ⟨start⟩
  stop : String.Pos.Raw.IsValid s ⟨stop⟩

theorem aligned_iff : Aligned s start stop ↔ start ≤ stop ∧
    String.Pos.Raw.IsValid s ⟨start⟩ ∧ String.Pos.Raw.IsValid s ⟨stop⟩ :=
  ⟨fun h => ⟨h.le, h.start, h.stop⟩, fun ⟨hle, hstart, hstop⟩ => ⟨hle, hstart, hstop⟩⟩

instance : Decidable (Aligned s start stop) :=
  decidable_of_iff _ aligned_iff.symm

theorem isValid_iff : String.Pos.Raw.IsValid s ⟨n⟩ ↔
    ∃ before after, s.toList = before ++ after ∧ n = utf8Size before := by
  rw [String.Pos.Raw.isValid_iff_exists_append]
  constructor
  · rintro ⟨before, after, rfl, hn⟩
    refine ⟨before.toList, after.toList, String.toList_append, ?_⟩
    rw [utf8Size_toList]
    exact congrArg String.Pos.Raw.byteIdx hn
  · rintro ⟨before, after, hs, rfl⟩
    refine ⟨String.ofList before, String.ofList after, ?_, ?_⟩
    · rw [← String.ofList_append, ← hs, String.ofList_toList]
    · have hsize := utf8Size_toList (String.ofList before)
      rw [String.toList_ofList] at hsize
      rw [hsize]
      rfl

theorem Aligned.exists_split (h : Aligned s start stop) : ∃ before middle after,
    s.toList = before ++ middle ++ after ∧ start = utf8Size before ∧
      stop = start + utf8Size middle := by
  obtain ⟨before, rest, hs, hstart⟩ := isValid_iff.mp h.start
  obtain ⟨upto, after, hs', hstop⟩ := isValid_iff.mp h.stop
  have hle := h.le
  rcases List.append_eq_append_iff.mp (hs.symm.trans hs') with ⟨middle, rfl, rfl⟩ | ⟨more, rfl, rfl⟩
  · rw [utf8Size_append] at hstop
    exact ⟨before, middle, after, hs', hstart, by omega⟩
  · -- The offsets are in order, so the first one is not past the second.
    rw [utf8Size_append] at hstart
    have hmore : utf8Size more = 0 := by omega
    obtain rfl := eq_nil_of_utf8Size hmore
    refine ⟨upto, [], rest, ?_, by rw [hstart, utf8Size, Nat.add_zero], ?_⟩
    · rw [List.append_nil, hs, List.append_nil]
    · rw [hstart, hstop]
      rfl

theorem extract_eq {before middle after : List Char} (hs : s.toList = before ++ middle ++ after) :
    String.Pos.Raw.extract s ⟨utf8Size before⟩ ⟨utf8Size before + utf8Size middle⟩ =
      String.ofList middle := by
  rw [← String.ofList_toList (s := s), hs, utf8Size_eq, utf8Size_eq]
  exact String.extract_of_valid before middle after

theorem aligned_part {before middle after : List Char} (hs : s.toList = before ++ middle ++ after) :
    Aligned s (utf8Size before) (utf8Size before + utf8Size middle) where
  le := Nat.le_add_right _ _
  start := isValid_iff.mpr ⟨before, middle ++ after, by rw [hs, List.append_assoc], rfl⟩
  stop := isValid_iff.mpr ⟨before ++ middle, after, hs, (utf8Size_append _ _).symm⟩

theorem aligned_whole (s : String) : Aligned s 0 s.utf8ByteSize :=
  ⟨Nat.zero_le _, String.Pos.Raw.isValid_zero, String.Pos.Raw.isValid_rawEndPos⟩

theorem slice?_of_aligned (h : Aligned s start stop) :
    slice? s start stop = some (String.Pos.Raw.extract s ⟨start⟩ ⟨stop⟩) := by
  obtain ⟨before, middle, after, hs, rfl, rfl⟩ := h.exists_split
  rw [extract_eq hs, slice?_eq_some_iff]
  exact ⟨before, after, by rw [String.toList_ofList, hs], rfl, by rw [String.toList_ofList]⟩

theorem slice?_whole (s : String) : slice? s 0 s.utf8ByteSize = some s := by
  rw [slice?_of_aligned (aligned_whole s)]
  exact congrArg some (String.extract_zero_rawEndPos s)

theorem slice?_eq_none (h : ¬ Aligned s start stop) : slice? s start stop = none := by
  rw [Option.eq_none_iff_forall_ne_some]
  intro part hpart
  obtain ⟨before, after, hs, rfl, rfl⟩ := slice?_eq_some_iff.mp hpart
  exact h (aligned_part hs)

example : slice? "aéb" 1 3 = some "é" := by
  decide

end TemplateLogging.Text
