namespace TemplateLogging

/-- Named entries; `Entries.Ascending` says that each name stands once and in order. -/
abbrev Entries (α : Type) := List (String × α)

namespace Entries

variable {α : Type}

def insert (name : String) (a : α) : Entries α → Entries α
  | [] => [(name, a)]
  | (other, b) :: rest =>
      if name < other then (name, a) :: (other, b) :: rest
      else if name = other then (name, a) :: rest
      else (other, b) :: insert name a rest

def insertAll (entries : Entries α) (pairs : List (String × α)) : Entries α :=
  pairs.foldl (fun entries (name, a) => entries.insert name a) entries

def find? (entries : Entries α) (name : String) : Option α :=
  List.lookup name entries

def names (entries : Entries α) : List String :=
  entries.map (·.1)

def Ascending (entries : Entries α) : Prop :=
  entries.Pairwise fun a b => a.1 < b.1

theorem ascending_nil : Ascending ([] : Entries α) :=
  List.Pairwise.nil

theorem mem_insert {name : String} {a : α} {entries : Entries α} {p : String × α}
    (h : p ∈ insert name a entries) : p = (name, a) ∨ p ∈ entries := by
  induction entries with
  | nil => simpa [insert] using h
  | cons q rest ih =>
      obtain ⟨other, b⟩ := q
      unfold insert at h
      split at h
      · simpa using h
      · split at h
        · rcases List.mem_cons.mp h with h | h
          · exact Or.inl h
          · exact Or.inr (List.mem_cons_of_mem _ h)
        · rcases List.mem_cons.mp h with h | h
          · exact Or.inr (h ▸ List.mem_cons_self)
          · rcases ih h with h | h
            · exact Or.inl h
            · exact Or.inr (List.mem_cons_of_mem _ h)

theorem Ascending.insert {entries : Entries α} (h : Ascending entries) (name : String) (a : α) :
    Ascending (Entries.insert name a entries) := by
  induction entries with
  | nil => exact List.pairwise_singleton _ _
  | cons q rest ih =>
      obtain ⟨other, b⟩ := q
      obtain ⟨hother, hrest⟩ := List.pairwise_cons.mp h
      unfold Entries.insert
      split
      · rename_i hlt
        refine List.pairwise_cons.mpr ⟨?_, h⟩
        intro p hp
        rcases List.mem_cons.mp hp with rfl | hp
        · exact hlt
        · exact String.lt_trans hlt (hother p hp)
      · split
        · rename_i heq
          subst heq
          exact List.pairwise_cons.mpr ⟨hother, hrest⟩
        · rename_i hnlt hne
          refine List.pairwise_cons.mpr ⟨?_, ih hrest⟩
          intro p hp
          rcases mem_insert hp with rfl | hp
          · exact Std.lt_of_le_of_ne (String.not_lt.mp hnlt) (Ne.symm hne)
          · exact hother p hp

theorem Ascending.insertAll {entries : Entries α} (h : Ascending entries)
    (pairs : List (String × α)) : Ascending (Entries.insertAll entries pairs) := by
  induction pairs generalizing entries with
  | nil => exact h
  | cons pair rest ih => exact ih (h.insert pair.1 pair.2)

theorem find?_cons (name other : String) (a : α) (rest : Entries α) :
    find? ((name, a) :: rest) other = if other = name then some a else find? rest other := by
  by_cases h : other = name
  · simp [find?, h]
  · have hbeq : (other == name) = false := beq_eq_false_iff_ne.mpr h
    simp [find?, List.lookup_cons, h, hbeq]

theorem find?_insert (entries : Entries α) (name other : String) (a : α) :
    find? (insert name a entries) other = if other = name then some a else find? entries other := by
  induction entries with
  | nil => exact find?_cons name other a []
  | cons q rest ih =>
      obtain ⟨key, b⟩ := q
      unfold insert
      split
      · exact find?_cons name other a _
      · split
        · rename_i heq
          subst heq
          by_cases h : other = name <;> simp [find?_cons, h]
        · rename_i hne
          by_cases h : other = key
          · subst h
            simp [find?_cons, Ne.symm hne]
          · simpa [find?_cons, h] using ih

end Entries

end TemplateLogging
