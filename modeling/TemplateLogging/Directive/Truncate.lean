namespace TemplateLogging.Directive

/-- The number of UTF-16 units of a character. -/
def units16 (c : Char) : Nat :=
  if c.toNat < 0x10000 then 1 else 2

def textUnits16 : List Char → Nat
  | [] => 0
  | c :: cs => units16 c + textUnits16 cs

def takeUnits16 : Nat → List Char → List Char
  | _, [] => []
  | budget, c :: cs =>
      if units16 c ≤ budget then c :: takeUnits16 (budget - units16 c) cs else []

def ellipsis : String := "..."

/-- Cuts a text that is longer than `maxLen` units. The ellipsis, if wanted, needs three of them and
is left out when there are no more than these. -/
def truncate (s : String) (maxLen : Nat) (addEllipsis : Bool) : String :=
  if textUnits16 s.toList ≤ maxLen then s
  else if addEllipsis ∧ 3 < maxLen then
    String.ofList (takeUnits16 (maxLen - 3) s.toList) ++ ellipsis
  else String.ofList (takeUnits16 maxLen s.toList)

/-- The UTF-16 units of a character, which are two surrogates outside the basic plane. -/
def utf16 (c : Char) : List Nat :=
  if c.toNat < 0x10000 then [c.toNat]
  else [0xD800 + (c.toNat - 0x10000) / 0x400, 0xDC00 + (c.toNat - 0x10000) % 0x400]

def encode16 (cs : List Char) : List Nat :=
  cs.flatMap utf16

def IsSurrogatePair : List Nat → Prop
  | [high, low] => (0xD800 ≤ high ∧ high < 0xDC00) ∧ 0xDC00 ≤ low ∧ low < 0xE000
  | _ => False

theorem length_utf16 (c : Char) : (utf16 c).length = units16 c := by
  rw [utf16, units16]
  split
  · rfl
  · rfl

theorem length_encode16 (cs : List Char) : (encode16 cs).length = textUnits16 cs := by
  induction cs with
  | nil => rfl
  | cons c cs ih =>
      rw [textUnits16, ← ih, ← length_utf16]
      exact List.length_append

theorem length_encode16_cons (c : Char) (cs : List Char) :
    (encode16 (c :: cs)).length = (utf16 c).length + (encode16 cs).length :=
  List.length_append

theorem length_encode16_append (cs ds : List Char) :
    (encode16 (cs ++ ds)).length = (encode16 cs).length + (encode16 ds).length := by
  rw [encode16, List.flatMap_append, List.length_append]
  rfl

theorem utf16_cases (c : Char) :
    (utf16 c).length = 1 ∨ (utf16 c).length = 2 ∧ IsSurrogatePair (utf16 c) := by
  by_cases hplane : c.toNat < 0x10000
  · rw [utf16, if_pos hplane]
    exact Or.inl rfl
  · have hlt : c.toNat < 0x110000 := by
      rcases c.valid with hvalid | ⟨-, hvalid⟩
      · exact Nat.lt_trans hvalid (by decide)
      · exact hvalid
    rw [utf16, if_neg hplane]
    refine Or.inr ⟨rfl, ⟨?_, ?_⟩, ?_, ?_⟩
    all_goals omega

end TemplateLogging.Directive
