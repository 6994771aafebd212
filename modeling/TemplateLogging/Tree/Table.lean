import TemplateLogging.Fault

/-!
Tables with node ids as keys, kept in ascending order of the ids. `get?` is the view: each operation
has one lemma that says what it does to it, and tables with the same view are equal.
-/

namespace TemplateLogging

namespace TableEntries

variable {α : Type}

def Ascending (entries : List (NodeId × α)) : Prop :=
  entries.Pairwise fun a b => a.1.index < b.1.index

def get? (entries : List (NodeId × α)) (id : NodeId) : Option α :=
  match entries with
  | [] => none
  | (key, a) :: rest => if key = id then some a else get? rest id

def insert (entries : List (NodeId × α)) (id : NodeId) (a : α) : List (NodeId × α) :=
  match entries with
  | [] => [(id, a)]
  | (key, b) :: rest =>
      if id.index < key.index then (id, a) :: (key, b) :: rest
      else if key = id then (id, a) :: rest
      else (key, b) :: insert rest id a

def erase (entries : List (NodeId × α)) (id : NodeId) : List (NodeId × α) :=
  entries.filter (·.1 ≠ id)

def modify (entries : List (NodeId × α)) (id : NodeId) (f : α → α) : List (NodeId × α) :=
  entries.map fun (key, a) => (key, if key = id then f a else a)

theorem key_of_mem_insert {entries : List (NodeId × α)} {id : NodeId} {a : α} {p : NodeId × α}
    (h : p ∈ insert entries id a) : p.1 = id ∨ p ∈ entries := by
  induction entries with
  | nil => simp only [insert, List.mem_singleton] at h; simp [h]
  | cons q rest ih =>
      obtain ⟨key, b⟩ := q
      unfold insert at h
      split at h
      · rcases List.mem_cons.mp h with rfl | h
        · exact Or.inl rfl
        · exact Or.inr h
      · split at h
        · rcases List.mem_cons.mp h with rfl | h
          · exact Or.inl rfl
          · exact Or.inr (List.mem_cons_of_mem _ h)
        · rcases List.mem_cons.mp h with rfl | h
          · exact Or.inr List.mem_cons_self
          · exact (ih h).imp_right (List.mem_cons_of_mem _)

theorem Ascending.insert {entries : List (NodeId × α)} (h : Ascending entries) (id : NodeId)
    (a : α) : Ascending (insert entries id a) := by
  induction entries with
  | nil => exact List.pairwise_singleton _ _
  | cons q rest ih =>
      obtain ⟨key, b⟩ := q
      obtain ⟨hkey, hrest⟩ := List.pairwise_cons.mp h
      unfold TableEntries.insert
      split
      · rename_i hlt
        refine List.pairwise_cons.mpr ⟨?_, h⟩
        intro p hp
        rcases List.mem_cons.mp hp with rfl | hp
        · exact hlt
        · exact Nat.lt_trans hlt (hkey p hp)
      · split
        · rename_i heq
          subst heq
          exact List.pairwise_cons.mpr ⟨hkey, hrest⟩
        · rename_i hnlt hne
          refine List.pairwise_cons.mpr ⟨?_, ih hrest⟩
          intro p hp
          rcases key_of_mem_insert hp with hp | hp
          · have hneq : key.index ≠ id.index := fun he => hne (by cases key; cases id; simp_all)
            simp only [hp]
            omega
          · exact hkey p hp

theorem Ascending.erase {entries : List (NodeId × α)} (h : Ascending entries) (id : NodeId) :
    Ascending (erase entries id) :=
  List.Pairwise.filter _ h

theorem Ascending.modify {entries : List (NodeId × α)} (h : Ascending entries) (id : NodeId)
    (f : α → α) : Ascending (modify entries id f) := by
  unfold Ascending TableEntries.modify
  exact List.pairwise_map.mpr h

theorem get?_insert (entries : List (NodeId × α)) (id other : NodeId) (a : α) :
    get? (insert entries id a) other = if id = other then some a else get? entries other := by
  induction entries with
  | nil => simp [insert, get?]
  | cons q rest ih =>
      obtain ⟨key, b⟩ := q
      unfold insert
      split
      · rfl
      · split
        · rename_i heq
          subst heq
          by_cases h : key = other <;> simp [get?, h]
        · rename_i hne
          simp only [get?, ih]
          by_cases h : key = other
          · subst h
            simp [Ne.symm hne]
          · simp [h]

theorem get?_erase (entries : List (NodeId × α)) (id other : NodeId) :
    get? (erase entries id) other = if id = other then none else get? entries other := by
  induction entries with
  | nil => simp [erase, get?]
  | cons q rest ih =>
      obtain ⟨key, b⟩ := q
      unfold erase at ih ⊢
      by_cases hk : key = id
      · subst hk
        simp only [ne_eq, not_true_eq_false, decide_false, Bool.false_eq_true,
          not_false_eq_true, List.filter_cons_of_neg, ih, get?]
        split <;> rfl
      · simp only [ne_eq, hk, not_false_eq_true, decide_true, List.filter_cons_of_pos, get?, ih]
        by_cases h : key = other
        · subst h
          simp [Ne.symm hk]
        · simp [h]

theorem get?_modify (entries : List (NodeId × α)) (id other : NodeId) (f : α → α) :
    get? (modify entries id f) other =
      if id = other then (get? entries other).map f else get? entries other := by
  induction entries with
  | nil => simp [modify, get?]
  | cons q rest ih =>
      obtain ⟨key, b⟩ := q
      unfold modify at ih ⊢
      simp only [List.map_cons, get?, ih]
      by_cases hk : key = other
      · subst hk
        by_cases h : key = id
        · simp [h]
        · simp [h, Ne.symm h]
      · simp [hk]

theorem get?_eq_none_of_lt {entries : List (NodeId × α)} {id : NodeId}
    (h : ∀ p ∈ entries, id.index < p.1.index) : get? entries id = none := by
  induction entries with
  | nil => rfl
  | cons q rest ih =>
      obtain ⟨key, b⟩ := q
      have hlt := h (key, b) List.mem_cons_self
      have hne : key ≠ id := fun he => by subst he; exact Nat.lt_irrefl _ hlt
      simp only [get?, hne, if_false]
      exact ih fun p hp => h p (List.mem_cons_of_mem _ hp)

theorem eq_of_get?_eq {as bs : List (NodeId × α)} (ha : Ascending as) (hb : Ascending bs)
    (h : ∀ id, get? as id = get? bs id) : as = bs := by
  induction as generalizing bs with
  | nil =>
      cases bs with
      | nil => rfl
      | cons q bs =>
          have := h q.1
          simp [get?] at this
  | cons p as ih =>
      obtain ⟨k, a⟩ := p
      cases bs with
      | nil =>
          have := h k
          simp [get?] at this
      | cons q bs =>
          obtain ⟨l, b⟩ := q
          obtain ⟨hk, has⟩ := List.pairwise_cons.mp ha
          obtain ⟨hl, hbs⟩ := List.pairwise_cons.mp hb
          have hkl : k = l := by
            rcases Nat.lt_trichotomy k.index l.index with hlt | heq | hgt
            · have hnone : get? ((l, b) :: bs) k = none := by
                refine get?_eq_none_of_lt fun p hp => ?_
                rcases List.mem_cons.mp hp with rfl | hp
                · exact hlt
                · exact Nat.lt_trans hlt (hl p hp)
              have := h k
              rw [hnone] at this
              simp [get?] at this
            · cases k; cases l; simp_all
            · have hnone : get? ((k, a) :: as) l = none := by
                refine get?_eq_none_of_lt fun p hp => ?_
                rcases List.mem_cons.mp hp with rfl | hp
                · exact hgt
                · exact Nat.lt_trans hgt (hk p hp)
              have := h l
              rw [hnone] at this
              simp [get?] at this
          subst hkl
          have hab : a = b := by simpa [get?] using h k
          subst hab
          congr 1
          refine ih has hbs fun id => ?_
          by_cases hid : k = id
          · subst hid
            rw [get?_eq_none_of_lt hk, get?_eq_none_of_lt hl]
          · simpa [get?, hid] using h id

theorem mem_of_get?_eq_some {entries : List (NodeId × α)} {id : NodeId} {a : α}
    (h : get? entries id = some a) : (id, a) ∈ entries := by
  induction entries with
  | nil => simp [get?] at h
  | cons q rest ih =>
      obtain ⟨key, b⟩ := q
      unfold get? at h
      split at h
      · rename_i heq
        subst heq
        cases h
        exact List.mem_cons_self
      · exact List.mem_cons_of_mem _ (ih h)

theorem get?_eq_some_of_mem {entries : List (NodeId × α)} (hasc : Ascending entries)
    {id : NodeId} {a : α} (h : (id, a) ∈ entries) : get? entries id = some a := by
  induction entries with
  | nil => simp at h
  | cons q rest ih =>
      obtain ⟨key, b⟩ := q
      obtain ⟨hkey, hrest⟩ := List.pairwise_cons.mp hasc
      rcases List.mem_cons.mp h with heq | h
      · cases heq
        simp [get?]
      · have hlt := hkey _ h
        have hne : key ≠ id := fun he => by subst he; exact Nat.lt_irrefl _ hlt
        simp only [get?, hne, if_false]
        exact ih hrest h

end TableEntries

/-- A table with ascending keys. -/
structure Table (α : Type) where
  entries : List (NodeId × α)
  ascending : TableEntries.Ascending entries

namespace Table

variable {α : Type}

def empty : Table α :=
  ⟨[], List.Pairwise.nil⟩

def get? (t : Table α) (id : NodeId) : Option α :=
  TableEntries.get? t.entries id

def insert (t : Table α) (id : NodeId) (a : α) : Table α :=
  ⟨TableEntries.insert t.entries id a, t.ascending.insert id a⟩

def erase (t : Table α) (id : NodeId) : Table α :=
  ⟨TableEntries.erase t.entries id, t.ascending.erase id⟩

def modify (t : Table α) (id : NodeId) (f : α → α) : Table α :=
  ⟨TableEntries.modify t.entries id f, t.ascending.modify id f⟩

def size (t : Table α) : Nat :=
  t.entries.length

def keys (t : Table α) : List NodeId :=
  t.entries.map (·.1)

theorem get?_insert (t : Table α) (id other : NodeId) (a : α) :
    (t.insert id a).get? other = if id = other then some a else t.get? other :=
  TableEntries.get?_insert t.entries id other a

theorem get?_erase (t : Table α) (id other : NodeId) :
    (t.erase id).get? other = if id = other then none else t.get? other :=
  TableEntries.get?_erase t.entries id other

theorem get?_modify (t : Table α) (id other : NodeId) (f : α → α) :
    (t.modify id f).get? other = if id = other then (t.get? other).map f else t.get? other :=
  TableEntries.get?_modify t.entries id other f

theorem ext {s t : Table α} (h : ∀ id, s.get? id = t.get? id) : s = t := by
  obtain ⟨as, ha⟩ := s
  obtain ⟨bs, hb⟩ := t
  have : as = bs := TableEntries.eq_of_get?_eq ha hb h
  subst this
  rfl

theorem mem_entries_iff {t : Table α} {id : NodeId} {a : α} :
    (id, a) ∈ t.entries ↔ t.get? id = some a :=
  ⟨TableEntries.get?_eq_some_of_mem t.ascending, TableEntries.mem_of_get?_eq_some⟩

end Table

end TemplateLogging
