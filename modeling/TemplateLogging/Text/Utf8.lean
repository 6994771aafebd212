/-!
Texts in their UTF-8 form: as bytes, and cut at byte offsets. A slice exists only when both offsets
fall between characters: `dropBytes?_utf8Size` and `takeBytes?_utf8Size` say that each offset
between characters is met.
-/

namespace TemplateLogging.Text

def utf8Bytes (cs : List Char) : List UInt8 :=
  cs.flatMap String.utf8EncodeChar

/-- Stands for bytes that make no character. -/
def replacement : Char := '\uFFFD'

def continuation (b : UInt8) : Nat :=
  b.toNat % 64

/-- The characters of a byte sequence, each byte read by the length its first byte announces. -/
def ofUtf8Bytes : List UInt8 → List Char
  | [] => []
  | a :: rest =>
      if a < 0x80 then Char.ofNat a.toNat :: ofUtf8Bytes rest
      else if a < 0xC0 then replacement :: ofUtf8Bytes rest
      else if a < 0xE0 then
        match rest with
        | b :: rest =>
            Char.ofNat (a.toNat % 32 * 64 + continuation b) :: ofUtf8Bytes rest
        | _ => [replacement]
      else if a < 0xF0 then
        match rest with
        | b :: c :: rest =>
            Char.ofNat ((a.toNat % 16 * 64 + continuation b) * 64 + continuation c) ::
              ofUtf8Bytes rest
        | _ => [replacement]
      else
        match rest with
        | b :: c :: d :: rest =>
            Char.ofNat (((a.toNat % 8 * 64 + continuation b) * 64 + continuation c) * 64 +
              continuation d) :: ofUtf8Bytes rest
        | _ => [replacement]

def utf8Size : List Char → Nat
  | [] => 0
  | c :: cs => c.utf8Size + utf8Size cs

/-- What follows the first `n` bytes, when these are whole characters. -/
def dropBytes? : Nat → List Char → Option (List Char)
  | 0, cs => some cs
  | _ + 1, [] => none
  | n + 1, c :: cs =>
      if c.utf8Size ≤ n + 1 then dropBytes? (n + 1 - c.utf8Size) cs else none
termination_by structural _ cs => cs

/-- The first `n` bytes, when these are whole characters. -/
def takeBytes? : Nat → List Char → Option (List Char)
  | 0, _ => some []
  | _ + 1, [] => none
  | n + 1, c :: cs =>
      if c.utf8Size ≤ n + 1 then (takeBytes? (n + 1 - c.utf8Size) cs).map (c :: ·) else none
termination_by structural _ cs => cs

/-- The characters from byte `start` up to byte `stop`. -/
def sliceChars? (cs : List Char) (start stop : Nat) : Option (List Char) :=
  if start ≤ stop then (dropBytes? start cs).bind (takeBytes? (stop - start)) else none

/-- The part of `s` from byte `start` up to byte `stop`; none when the range is reversed, goes past
the end or cuts a character. -/
def slice? (s : String) (start stop : Nat) : Option String :=
  (sliceChars? s.toList start stop).map String.ofList

theorem utf8Size_append (as bs : List Char) :
    utf8Size (as ++ bs) = utf8Size as + utf8Size bs := by
  induction as with
  | nil => simp [utf8Size]
  | cons c cs ih => simp [utf8Size, ih, Nat.add_assoc]

theorem dropBytes?_utf8Size (as bs : List Char) :
    dropBytes? (utf8Size as) (as ++ bs) = some bs := by
  induction as with
  | nil => cases bs <;> rfl
  | cons c cs ih =>
      have hpos := c.utf8Size_pos
      obtain ⟨n, hn⟩ : ∃ n, c.utf8Size + utf8Size cs = n + 1 :=
        ⟨c.utf8Size + utf8Size cs - 1, by omega⟩
      have hle : c.utf8Size ≤ n + 1 := by omega
      have hrest : n + 1 - c.utf8Size = utf8Size cs := by omega
      simp only [utf8Size, List.cons_append, hn, dropBytes?, hle, if_true, hrest, ih]

theorem takeBytes?_utf8Size (as bs : List Char) :
    takeBytes? (utf8Size as) (as ++ bs) = some as := by
  induction as with
  | nil => cases bs <;> rfl
  | cons c cs ih =>
      have hpos := c.utf8Size_pos
      obtain ⟨n, hn⟩ : ∃ n, c.utf8Size + utf8Size cs = n + 1 :=
        ⟨c.utf8Size + utf8Size cs - 1, by omega⟩
      have hle : c.utf8Size ≤ n + 1 := by omega
      have hrest : n + 1 - c.utf8Size = utf8Size cs := by omega
      simp only [utf8Size, List.cons_append, hn, takeBytes?, hle, if_true, hrest, ih,
        Option.map_some]

end TemplateLogging.Text
