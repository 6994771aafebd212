import Mathlib.Algebra.Ring.Int.Defs
import Mathlib.Data.List.Basic
import TemplateLogging.Json.Parser

namespace TemplateLogging

theorem Decimal.digitsValue_toDigits (n : Nat) : digitsValue (Nat.toDigits 10 n) = n :=
  Nat.ofDigitChars_ten_toDigits

namespace Json

variable {cs rest : List Char} {c : Char}

/-- A number that is read up to here ends here. -/
def EndsNumber (rest : List Char) : Prop :=
  ∀ c cs, rest = c :: cs → c.isDigit = false ∧ c ≠ '.' ∧ c ≠ 'e' ∧ c ≠ 'E'

theorem endsNumber_nil : EndsNumber [] := by
  intro c cs h
  cases h

theorem toDigits_ne_zero_cons {n : Nat} (hn : 0 < n) (cs : List Char) :
    Nat.toDigits 10 n ≠ '0' :: cs := by
  induction n using Nat.strongRecOn generalizing cs with
  | ind n ih =>
      by_cases hlt : n < 10
      · rw [Nat.toDigits_of_lt_base hlt]
        intro heq
        rw [List.cons.injEq] at heq
        have hdigit : ∀ d < 10, 0 < d → Nat.digitChar d ≠ '0' := by decide
        exact hdigit n hlt hn heq.1
      · rw [Nat.toDigits_of_base_le (by decide) (by omega)]
        have hfront := ih (n / 10) (by omega) (by omega)
        cases hdigits : Nat.toDigits 10 (n / 10) with
        | nil => exact absurd hdigits Nat.toDigits_ne_nil
        | cons d ds =>
            intro heq
            rw [List.cons_append, List.cons.injEq] at heq
            rw [heq.1] at hdigits
            exact hfront ds hdigits

theorem isWhole_toDigits (n : Nat) : isWhole (Nat.toDigits 10 n) = true := by
  by_cases hn : n = 0
  · subst hn
    decide
  · unfold isWhole
    split
    · rename_i heq
      exact absurd heq (toDigits_ne_zero_cons (Nat.pos_of_ne_zero hn) _)
    · rfl

theorem isDigit_of_mem_toDigits {n : Nat} (h : c ∈ Nat.toDigits 10 n) : c.isDigit = true :=
  Nat.isDigit_of_mem_toDigits (by decide) (by decide) h

theorem digits?_append {ds : List Char} (hds : ∀ c ∈ ds, c.isDigit = true) (hne : ds ≠ [])
    (hrest : EndsNumber rest) : digits? (ds ++ rest) = some (ds, rest) := by
  have hstop : rest.takeWhile Char.isDigit = [] ∧ rest.dropWhile Char.isDigit = rest := by
    cases rest with
    | nil => exact ⟨rfl, rfl⟩
    | cons c cs =>
        have hc := (hrest c cs rfl).1
        simp [hc]
  rw [digits?, List.takeWhile_append_of_pos hds, List.dropWhile_append_of_pos hds, hstop.1,
    hstop.2, List.append_nil]
  simp [hne]

theorem fraction?_of_endsNumber (h : EndsNumber rest) : fraction? rest = some ([], rest) := by
  unfold fraction?
  split
  · exact absurd rfl (h _ _ rfl).2.1
  · rfl

theorem exponent?_of_endsNumber (h : EndsNumber rest) : exponent? rest = some (none, rest) := by
  cases rest with
  | nil => rfl
  | cons c cs =>
      have hc := h c cs rfl
      rw [exponent?, if_neg (not_or.mpr hc.2.2)]

theorem le_ofDigitChars (ds : List Char) (n : Nat) : n ≤ Nat.ofDigitChars 10 ds n := by
  induction ds generalizing n with
  | nil => exact Nat.le_refl n
  | cons d ds ih =>
      have hle := ih (10 * n + (d.toNat - '0'.toNat))
      rw [Nat.ofDigitChars_cons]
      omega

theorem absorb_eq {ds : List Char} {n : Nat} (h : Nat.ofDigitChars 10 ds n < UInt64.size) :
    absorb n ds = (Nat.ofDigitChars 10 ds n, []) := by
  induction ds generalizing n with
  | nil => rfl
  | cons d ds ih =>
      rw [Nat.ofDigitChars_cons] at h ⊢
      have hle := le_ofDigitChars ds (10 * n + (d.toNat - '0'.toNat))
      rw [absorb, if_pos (by omega), ih h]

theorem ofParts_whole {n : Nat} (negative : Bool) (h : n < UInt64.size) :
    ofParts negative (Nat.toDigits 10 n) [] none = ofInteger negative n := by
  have habsorb : absorb 0 (Nat.toDigits 10 n) = (n, []) := by
    have hvalue : Nat.ofDigitChars 10 (Nat.toDigits 10 n) 0 = n := Nat.ofDigitChars_ten_toDigits
    rw [absorb_eq (by omega), hvalue]
  rw [ofParts, habsorb]
  rfl

theorem number?_digits {n : Nat} (negative : Bool) (h : n < UInt64.size) (hrest : EndsNumber rest) :
    (digits? (Nat.toDigits 10 n ++ rest)).bind (fun (whole, cs) =>
        if isWhole whole then
          (fraction? cs).bind fun (fraction, cs) =>
            (exponent? cs).map fun (exponent, cs) => (ofParts negative whole fraction exponent, cs)
        else none) = some (ofInteger negative n, rest) := by
  rw [digits?_append (fun c => isDigit_of_mem_toDigits) Nat.toDigits_ne_nil hrest, Option.bind_some]
  simp only [isWhole_toDigits, if_true, fraction?_of_endsNumber hrest, Option.bind_some,
    exponent?_of_endsNumber hrest, Option.map_some, ofParts_whole negative h]

theorem number?_intChars {n : Int} (hlow : -2 ^ 63 ≤ n) (hhigh : n < 2 ^ 64)
    (hrest : EndsNumber rest) : number? (intChars n ++ rest) = some (int n, rest) := by
  cases n with
  | ofNat n =>
      rw [Int.ofNat_eq_natCast] at hhigh
      have hlt : n < UInt64.size := by
        rw [show UInt64.size = 2 ^ 64 from rfl]
        omega
      have hsign : ∀ cs, Nat.toDigits 10 n ++ rest ≠ '-' :: cs := by
        intro cs heq
        cases hdigits : Nat.toDigits 10 n with
        | nil => exact Nat.toDigits_ne_nil hdigits
        | cons d ds =>
            rw [hdigits, List.cons_append, List.cons.injEq] at heq
            have hd : d.isDigit = true := isDigit_of_mem_toDigits (hdigits ▸ List.mem_cons_self)
            rw [heq.1] at hd
            exact absurd hd (by decide)
      unfold number? intChars
      split
      rename_i heq
      split at heq
      · exact absurd (by assumption) (hsign _)
      · cases heq
        exact number?_digits _ hlt hrest
  | negSucc n =>
      have hlt : n + 1 < UInt64.size := by
        rw [show UInt64.size = 2 ^ 64 from rfl]
        omega
      have hvalue : (-((n + 1 : Nat) : Int)) = Int.negSucc n := rfl
      have hint : ofInteger true (n + 1) = int (Int.negSucc n) := by
        have hround : (Int64.ofInt (Int.negSucc n)).toInt = Int.negSucc n :=
          Int64.toInt_ofInt_of_le hlow (by omega)
        rw [ofInteger, hvalue]
        simp [hround]
      rw [intChars, List.cons_append, number?]
      rw [← hint]
      exact number?_digits _ hlt hrest

theorem pieces?_letter {e d : Char} (he : e ≠ 'u') (hd : unescape? e = some d) (cs : List Char) :
    pieces? ('\\' :: e :: cs) = (pieces? cs).map fun (ps, rest) => (.char d :: ps, rest) := by
  rw [pieces?.eq_def ('\\' :: e :: cs)]
  simp only [if_neg (show '\\' ≠ '"' by decide), if_true, if_neg he, hd]
  cases pieces? cs <;> rfl

theorem pieces?_control {n : Nat} (hn : n < 0x20) (cs : List Char) :
    pieces? ('\\' :: 'u' :: '0' :: '0' :: (hexDigits n ++ cs)) =
      (pieces? cs).map fun (ps, rest) => (.unit n :: ps, rest) := by
  have hunit : ∀ n < 0x20, hexUnit? '0' '0' (Nat.digitChar (n / 16 % 16)) (Nat.digitChar (n % 16)) =
      some n := by decide
  rw [hexDigits, List.cons_append, List.singleton_append, pieces?.eq_def ('\\' :: _)]
  simp only [if_neg (show '\\' ≠ '"' by decide), if_true, hunit n hn]
  cases pieces? cs <;> rfl

theorem pieces?_escapeChar (c : Char) (cs : List Char) : ∃ p : Piece,
    (∀ ps, joinPieces? (p :: ps) = (joinPieces? ps).map (c :: ·)) ∧
      pieces? (escapeChar c ++ cs) = (pieces? cs).map fun (ps, rest) => (p :: ps, rest) := by
  unfold escapeChar
  split_ifs with hquote hslash hb hf hn hr ht hcontrol
  · exact ⟨.char c, fun _ => rfl, hquote ▸ pieces?_letter (e := '"') (by decide) rfl cs⟩
  · exact ⟨.char c, fun _ => rfl, hslash ▸ pieces?_letter (e := '\\') (by decide) rfl cs⟩
  · exact ⟨.char c, fun _ => rfl, hb ▸ pieces?_letter (by decide) rfl cs⟩
  · exact ⟨.char c, fun _ => rfl, hf ▸ pieces?_letter (by decide) rfl cs⟩
  · exact ⟨.char c, fun _ => rfl, hn ▸ pieces?_letter (by decide) rfl cs⟩
  · exact ⟨.char c, fun _ => rfl, hr ▸ pieces?_letter (by decide) rfl cs⟩
  · exact ⟨.char c, fun _ => rfl, ht ▸ pieces?_letter (by decide) rfl cs⟩
  · refine ⟨.unit c.toNat, ?_, pieces?_control hcontrol cs⟩
    intro ps
    have hlead : isLead c.toNat = false := by
      rw [isLead, decide_eq_false (by omega), Bool.false_and]
    have htrail : isTrail c.toNat = false := by
      rw [isTrail, decide_eq_false (by omega), Bool.false_and]
    rw [joinPieces?.eq_def]
    simp only [hlead, htrail, Char.ofNat_toNat, Bool.false_eq_true, if_false]
  · refine ⟨.char c, fun _ => rfl, ?_⟩
    rw [List.singleton_append, pieces?.eq_def (c :: cs)]
    simp only [if_neg hquote, if_neg hslash, if_neg hcontrol]
    cases pieces? cs <;> rfl

theorem pieces?_flatMap_escapeChar (s rest : List Char) :
    ∃ ps, pieces? (s.flatMap escapeChar ++ '"' :: rest) = some (ps, rest) ∧
      joinPieces? ps = some s := by
  induction s with
  | nil =>
      refine ⟨[], ?_, rfl⟩
      rw [List.flatMap_nil, List.nil_append, pieces?.eq_def]
      rfl
  | cons c s ih =>
      obtain ⟨ps, hpieces, hjoin⟩ := ih
      obtain ⟨p, hp, hc⟩ := pieces?_escapeChar c (s.flatMap escapeChar ++ '"' :: rest)
      refine ⟨p :: ps, ?_, ?_⟩
      · rw [List.flatMap_cons, List.append_assoc, hc, hpieces]
        rfl
      · rw [hp, hjoin]
        rfl

theorem stringTail?_eq (s : String) (rest : List Char) :
    stringTail? (s.toList.flatMap escapeChar ++ '"' :: rest) = some (some s, rest) := by
  obtain ⟨ps, hpieces, hjoin⟩ := pieces?_flatMap_escapeChar s.toList rest
  rw [stringTail?, hpieces, Option.map_some]
  simp only [hjoin, Option.map_some, String.ofList_toList]

/-- A member name that is written as it is, without escapes. -/
def Key.IsPlain (key : Key) : Prop :=
  key.escaped = false ∧ ∀ c ∈ key.text.toList, escapeChar c = [c]

theorem escapeChar_of_isDigit (h : c.isDigit = true) : escapeChar c = [c] := by
  have hne : ∀ d : Char, d.isDigit = false → c ≠ d := by
    rintro d hd rfl
    rw [h] at hd
    cases hd
  have hlow : '0'.toNat ≤ c.toNat := (Char.isDigit_iff_toNat.mp h).1
  rw [show '0'.toNat = 48 from rfl] at hlow
  rw [escapeChar, if_neg (hne _ (by decide)), if_neg (hne _ (by decide)),
    if_neg (hne _ (by decide)), if_neg (hne _ (by decide)), if_neg (hne _ (by decide)),
    if_neg (hne _ (by decide)), if_neg (hne _ (by decide)), if_neg (by omega)]

theorem flatMap_escapeChar_eq {s : List Char} (h : ∀ c ∈ s, escapeChar c = [c]) :
    s.flatMap escapeChar = s := by
  induction s with
  | nil => rfl
  | cons c s ih =>
      rw [List.flatMap_cons, h c List.mem_cons_self, ih fun d hd => h d (List.mem_cons_of_mem _ hd)]
      rfl

theorem keyTail?_eq {key : Key} (h : key.IsPlain) (rest : List Char) :
    keyTail? (key.text.toList.flatMap escapeChar ++ '"' :: rest) = some (some key, rest) := by
  have hplain : ∀ c ∈ key.text.toList, c ≠ '"' ∧ c ≠ '\\' := by
    intro c hc
    have hescape := h.2 c hc
    constructor
    · rintro rfl
      exact absurd hescape (by decide)
    · rintro rfl
      exact absurd hescape (by decide)
  have hfront : (key.text.toList ++ '"' :: rest).takeWhile (· != '"') = key.text.toList := by
    rw [List.takeWhile_append_of_pos fun c hc => bne_iff_ne.mpr (hplain c hc).1,
      List.takeWhile_cons_of_neg (by decide), List.append_nil]
  have hescaped : key.text.toList.contains '\\' = false := by
    rw [List.contains_eq_mem, decide_eq_false_iff_not]
    intro hmem
    exact (hplain _ hmem).2 rfl
  rw [keyTail?, stringTail?_eq, flatMap_escapeChar_eq h.2, hfront, hescaped, ← h.1]
  rfl

mutual

/-- A value that its text determines: no doubles, integers within 64 bits, plain names. -/
def IsPlain : Json → Prop
  | int n => -2 ^ 63 ≤ n ∧ n < 2 ^ 64
  | float _ => False
  | arr items => ArePlain items
  | obj members => ArePlainMembers members
  | unreadable => False
  | _ => True

def ArePlain : List Json → Prop
  | [] => True
  | j :: rest => j.IsPlain ∧ ArePlain rest

def ArePlainMembers : List (Key × Json) → Prop
  | [] => True
  | (key, j) :: rest => key.IsPlain ∧ j.IsPlain ∧ ArePlainMembers rest

end

/-- The text of the items of an array, with the closing bracket. -/
def itemsChars : List Json → List Char
  | [] => [']']
  | j :: rest => j.chars ++ moreItems rest

/-- The text of the members of an object, with the closing brace. -/
def membersChars : List (Key × Json) → List Char
  | [] => ['\x7d']
  | (key, j) :: rest => quoted key.text ++ ':' :: (j.chars ++ moreMembers rest)

theorem chars_arr (items : List Json) : (arr items).chars = '[' :: itemsChars items := by
  cases items with
  | nil => rw [chars, itemsChars]
  | cons j rest => rw [chars, itemsChars]

theorem chars_obj (members : List (Key × Json)) :
    (obj members).chars = '\x7b' :: membersChars members := by
  cases members with
  | nil => rw [chars, membersChars]
  | cons member rest => rw [chars, membersChars]

theorem moreItems_cons (j : Json) (rest : List Json) :
    moreItems (j :: rest) = ',' :: itemsChars (j :: rest) := by
  rw [moreItems, itemsChars]

theorem moreMembers_cons (member : Key × Json) (rest : List (Key × Json)) :
    moreMembers (member :: rest) = ',' :: membersChars (member :: rest) := by
  rw [moreMembers, membersChars]

theorem length_moreItems_pos (items : List Json) : 0 < (moreItems items).length := by
  cases items with
  | nil => exact Nat.one_pos
  | cons j items =>
      rw [moreItems_cons]
      exact Nat.succ_pos _

theorem length_moreMembers_pos (members : List (Key × Json)) :
    0 < (moreMembers members).length := by
  cases members with
  | nil => exact Nat.one_pos
  | cons member members =>
      rw [moreMembers_cons]
      exact Nat.succ_pos _

theorem endsNumber_moreItems (items : List Json) (rest : List Char) :
    EndsNumber (moreItems items ++ rest) := by
  intro c cs h
  cases items with
  | nil =>
      rw [moreItems, List.singleton_append, List.cons.injEq] at h
      rw [← h.1]
      decide
  | cons j items =>
      rw [moreItems_cons, List.cons_append, List.cons.injEq] at h
      rw [← h.1]
      decide

theorem endsNumber_moreMembers (members : List (Key × Json)) (rest : List Char) :
    EndsNumber (moreMembers members ++ rest) := by
  intro c cs h
  cases members with
  | nil =>
      rw [moreMembers, List.singleton_append, List.cons.injEq] at h
      rw [← h.1]
      decide
  | cons member members =>
      rw [moreMembers_cons, List.cons_append, List.cons.injEq] at h
      rw [← h.1]
      decide

/-- A character that a number begins with. -/
def StartsNumber (c : Char) : Prop :=
  c.isDigit = true ∨ c = '-'

theorem StartsNumber.ne (h : StartsNumber c) {d : Char} (hd : d.isDigit = false) (hsign : d ≠ '-') :
    c ≠ d := by
  rintro rfl
  rcases h with h | h
  · rw [hd] at h
    cases h
  · exact hsign h

theorem intChars_eq_cons (n : Int) : ∃ c cs, intChars n = c :: cs ∧ StartsNumber c := by
  cases n with
  | ofNat n =>
      cases hdigits : Nat.toDigits 10 n with
      | nil => exact absurd hdigits Nat.toDigits_ne_nil
      | cons d ds =>
          refine ⟨d, ds, hdigits, Or.inl ?_⟩
          exact isDigit_of_mem_toDigits (hdigits ▸ List.mem_cons_self)
  | negSucc n => exact ⟨'-', _, rfl, Or.inr rfl⟩

theorem skipBlank_number (h : StartsNumber c) (cs : List Char) : skipBlank (c :: cs) = c :: cs := by
  have hspace : c ≠ ' ' := h.ne (by decide) (by decide)
  have hline : c ≠ '\n' := h.ne (by decide) (by decide)
  have htab : c ≠ '\t' := h.ne (by decide) (by decide)
  have hreturn : c ≠ '\r' := h.ne (by decide) (by decide)
  exact List.dropWhile_cons_of_neg (by simp [hspace, hline, htab, hreturn])

theorem value?_number {j : Json} (fuel : Nat) (h : StartsNumber c)
    (hnumber : number? (c :: cs) = some (j, rest)) :
    value? (fuel + 1) (c :: cs) = some (j, rest) := by
  rw [value?, skipBlank_number h]
  simp only
  rw [if_neg (h.ne (by decide) (by decide)), if_neg (h.ne (by decide) (by decide)),
    if_neg (h.ne (by decide) (by decide)), if_neg (h.ne (by decide) (by decide)),
    if_neg (h.ne (by decide) (by decide)), if_neg (h.ne (by decide) (by decide)), hnumber]

theorem skipBlank_chars {j : Json} (h : j.IsPlain) (rest : List Char) :
    ∃ c cs, skipBlank (j.chars ++ rest) = c :: cs ∧ j.chars ++ rest = c :: cs ∧ c ≠ ']' := by
  cases j with
  | null => exact ⟨'n', _, rfl, rfl, by decide⟩
  | bool b =>
      cases b with
      | false => exact ⟨'f', _, rfl, rfl, by decide⟩
      | true => exact ⟨'t', _, rfl, rfl, by decide⟩
  | int n =>
      obtain ⟨c, cs, hchars, hc⟩ := intChars_eq_cons n
      refine ⟨c, cs ++ rest, ?_, ?_, hc.ne (by decide) (by decide)⟩
      · rw [chars, hchars, List.cons_append, skipBlank_number hc]
      · rw [chars, hchars, List.cons_append]
  | float x => exact absurd h id
  | str s => exact ⟨'"', _, rfl, rfl, by decide⟩
  | arr items =>
      rw [chars_arr]
      exact ⟨'[', _, rfl, rfl, by decide⟩
  | obj members =>
      rw [chars_obj]
      exact ⟨'\x7b', _, rfl, rfl, by decide⟩
  | unreadable => exact absurd h id

theorem value?_items {cs ds : List Char} {fuel : Nat} {items : List Json}
    (hskip : skipBlank cs = c :: ds) (hc : c ≠ ']')
    (hitems : items? fuel (c :: ds) = some (items, rest)) :
    value? (fuel + 1) ('[' :: cs) = some (arr items, rest) := by
  have hopen : skipBlank ('[' :: cs) = '[' :: cs := rfl
  simp only [value?, hopen, hskip]
  rw [if_neg (by decide), if_true, if_neg hc, hitems]
  rfl

theorem ofMembers_map_some (members : List (Key × Json)) :
    ofMembers (members.map fun member => (some member.1, member.2)) = obj members := by
  have hread : ∀ members : List (Key × Json),
      (members.map fun member => (some member.1, member.2)).mapM
        (fun member => member.1.map fun key => (key, member.2)) = some members := by
    intro members
    induction members with
    | nil => rfl
    | cons member members ih =>
        rw [List.map_cons, List.mapM_cons, ih]
        rfl
  rw [ofMembers]
  split
  · rename_i heq
    rw [Option.some.inj ((hread members).symm.trans heq)]
  · rename_i heq
    cases (hread members).symm.trans heq

theorem value?_members {ds : List Char} {fuel : Nat} {members : List (Key × Json)}
    (hmembers : members? fuel ('"' :: ds) =
      some (members.map fun member => (some member.1, member.2), rest)) :
    value? (fuel + 1) ('\x7b' :: '"' :: ds) = some (obj members, rest) := by
  show (members? fuel ('"' :: ds)).map (fun read => (ofMembers read.1, read.2)) = _
  rw [hmembers, Option.map_some, ofMembers_map_some]

mutual

theorem value?_chars : ∀ (j : Json) (fuel : Nat) (rest : List Char), j.IsPlain →
    j.chars.length ≤ fuel → EndsNumber rest → value? fuel (j.chars ++ rest) = some (j, rest)
  | _, 0, _, hj, hfuel, _ => by
      obtain ⟨c, cs, -, hchars, -⟩ := skipBlank_chars hj []
      rw [List.append_nil] at hchars
      rw [hchars] at hfuel
      exact absurd hfuel (Nat.not_succ_le_zero _)
  | null, fuel + 1, rest, _, _, _ => rfl
  | bool true, fuel + 1, rest, _, _, _ => rfl
  | bool false, fuel + 1, rest, _, _, _ => rfl
  | int n, fuel + 1, rest, hj, _, hrest => by
      obtain ⟨c, cs, hchars, hc⟩ := intChars_eq_cons n
      have hnumber := number?_intChars hj.1 hj.2 hrest
      rw [hchars, List.cons_append] at hnumber
      rw [chars, hchars, List.cons_append]
      exact value?_number fuel hc hnumber
  | str s, fuel + 1, rest, _, _, _ => by
      have htail := stringTail?_eq s rest
      rw [chars, quoted, List.cons_append, List.append_assoc, List.singleton_append]
      show (stringTail? (s.toList.flatMap escapeChar ++ '"' :: rest)).map _ = _
      rw [htail]
      rfl
  | arr [], fuel + 1, rest, _, _, _ => rfl
  | arr (j :: items), fuel + 1, rest, hj, hfuel, _ => by
      rw [chars_arr, List.length_cons] at hfuel
      have hitems := items?_itemsChars (j :: items) fuel rest (List.cons_ne_nil _ _) hj
        (Nat.le_of_succ_le_succ hfuel)
      obtain ⟨c, cs, hskip, hchars, hc⟩ := skipBlank_chars hj.1 (moreItems items ++ rest)
      rw [← List.append_assoc] at hskip hchars
      rw [itemsChars, hchars] at hitems
      rw [chars_arr, List.cons_append]
      exact value?_items hskip hc hitems
  | obj [], fuel + 1, rest, _, _, _ => rfl
  | obj ((key, j) :: members), fuel + 1, rest, hj, hfuel, _ => by
      rw [chars_obj, List.length_cons] at hfuel
      have hmembers := members?_membersChars ((key, j) :: members) fuel rest (List.cons_ne_nil _ _)
        hj (Nat.le_of_succ_le_succ hfuel)
      rw [chars_obj, List.cons_append]
      exact value?_members hmembers

theorem items?_itemsChars : ∀ (items : List Json) (fuel : Nat) (rest : List Char), items ≠ [] →
    ArePlain items → (itemsChars items).length ≤ fuel →
      items? fuel (itemsChars items ++ rest) = some (items, rest)
  | [], _, _, hne, _, _ => absurd rfl hne
  | j :: items, 0, rest, _, _, hfuel => by
      rw [itemsChars, List.length_append] at hfuel
      have hpos := length_moreItems_pos items
      omega
  | j :: items, fuel + 1, rest, _, hplain, hfuel => by
      rw [itemsChars, List.length_append] at hfuel
      have hpos := length_moreItems_pos items
      have hj := value?_chars j fuel (moreItems items ++ rest) hplain.1 (by omega)
        (endsNumber_moreItems items rest)
      rw [itemsChars, List.append_assoc, items?, hj, Option.bind_some]
      cases items with
      | nil => rfl
      | cons k items =>
          rw [moreItems_cons, List.length_cons] at hfuel
          have hrest := items?_itemsChars (k :: items) fuel rest (List.cons_ne_nil _ _) hplain.2
            (by omega)
          rw [moreItems_cons]
          show (items? fuel (itemsChars (k :: items) ++ rest)).map _ = _
          rw [hrest]
          rfl

theorem members?_membersChars : ∀ (members : List (Key × Json)) (fuel : Nat) (rest : List Char),
    members ≠ [] → ArePlainMembers members → (membersChars members).length ≤ fuel →
      members? fuel (membersChars members ++ rest) =
        some (members.map fun member => (some member.1, member.2), rest)
  | [], _, _, hne, _, _ => absurd rfl hne
  | (key, j) :: members, 0, rest, _, _, hfuel => by
      exact absurd hfuel (Nat.not_succ_le_zero _)
  | (key, j) :: members, fuel + 1, rest, _, hplain, hfuel => by
      rw [membersChars, List.length_append, List.length_cons, List.length_append] at hfuel
      have hpos := length_moreMembers_pos members
      have hj := value?_chars j fuel (moreMembers members ++ rest) hplain.2.1 (by omega)
        (endsNumber_moreMembers members rest)
      have hkey := keyTail?_eq hplain.1 (':' :: (j.chars ++ (moreMembers members ++ rest)))
      have hchars : membersChars ((key, j) :: members) ++ rest =
          '"' :: (key.text.toList.flatMap escapeChar ++
            '"' :: ':' :: (j.chars ++ (moreMembers members ++ rest))) := by
        simp only [membersChars, quoted, List.cons_append, List.append_assoc, List.nil_append]
      rw [hchars, members?]
      show (keyTail? _).bind _ = _
      rw [hkey, Option.bind_some]
      show (value? fuel (j.chars ++ (moreMembers members ++ rest))).bind _ = _
      rw [hj, Option.bind_some]
      cases members with
      | nil => rfl
      | cons member members =>
          rw [moreMembers_cons, List.length_cons] at hfuel
          have hrest := members?_membersChars (member :: members) fuel rest (List.cons_ne_nil _ _)
            hplain.2.2 (by omega)
          rw [moreMembers_cons]
          show (members? fuel (membersChars (member :: members) ++ rest)).map _ = _
          rw [hrest]
          rfl

end

mutual

theorem clip_eq_self : ∀ (j : Json) (levels : Nat), j.depth ≤ levels → j.clip levels = j
  | arr items, 0, h => absurd h (Nat.not_succ_le_zero _)
  | obj members, 0, h => absurd h (Nat.not_succ_le_zero _)
  | arr items, levels + 1, h => by
      rw [clip, clipItems_eq_self items levels (Nat.le_of_succ_le_succ h)]
  | obj members, levels + 1, h => by
      rw [clip, clipMembers_eq_self members levels (Nat.le_of_succ_le_succ h)]
  | null, _, _ => by rw [clip] <;> simp
  | bool b, _, _ => by rw [clip] <;> simp
  | int n, _, _ => by rw [clip] <;> simp
  | float x, _, _ => by rw [clip] <;> simp
  | str s, _, _ => by rw [clip] <;> simp
  | unreadable, _, _ => by rw [clip] <;> simp

theorem clipItems_eq_self : ∀ (items : List Json) (levels : Nat), depthItems items ≤ levels →
    clipItems levels items = items
  | [], _, _ => by rw [clipItems]
  | j :: items, levels, h => by
      rw [depthItems] at h
      rw [clipItems, clip_eq_self j levels (by omega), clipItems_eq_self items levels (by omega)]

theorem clipMembers_eq_self : ∀ (members : List (Key × Json)) (levels : Nat),
    depthMembers members ≤ levels → clipMembers levels members = members
  | [], _, _ => by rw [clipMembers]
  | (key, j) :: members, levels, h => by
      rw [depthMembers] at h
      rw [clipMembers, clip_eq_self j levels (by omega),
        clipMembers_eq_self members levels (by omega)]

end

/-- A value without doubles that nests no deeper than the reader goes is read from its text. -/
theorem parse?_text {j : Json} (hplain : j.IsPlain) (hdepth : j.depth ≤ maxDepth) :
    parse? j.text = some j := by
  have hvalue := value?_chars j (j.chars.length + 1) [] hplain (Nat.le_succ _) endsNumber_nil
  rw [List.append_nil] at hvalue
  rw [parse?, text, String.toList_ofList, hvalue]
  simp only
  rw [clip_eq_self j maxDepth hdepth]
  rfl

end Json

end TemplateLogging
