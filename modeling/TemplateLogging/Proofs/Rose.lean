namespace TemplateLogging

/-- An ordered tree with a label at every node. -/
inductive Rose (α : Type) where
  | node (label : α) (children : List (Rose α))

namespace Rose

variable {α β : Type}

def label : Rose α → α
  | node a _ => a

def children : Rose α → List (Rose α)
  | node _ cs => cs

mutual

/-- The labels, a label before those below it. -/
def labels : Rose α → List α
  | node a cs => a :: labelsAll cs

def labelsAll : List (Rose α) → List α
  | [] => []
  | b :: bs => b.labels ++ labelsAll bs

end

mutual

/-- The number of labels on the longest way down. -/
def height : Rose α → Nat
  | node _ cs => heightAll cs + 1

def heightAll : List (Rose α) → Nat
  | [] => 0
  | b :: bs => max b.height (heightAll bs)

end

mutual

/-- The same tree with other labels. -/
def map (f : α → β) : Rose α → Rose β
  | node a cs => node (f a) (mapAll f cs)

def mapAll (f : α → β) : List (Rose α) → List (Rose β)
  | [] => []
  | b :: bs => b.map f :: mapAll f bs

end

@[simp] theorem label_node (a : α) (cs : List (Rose α)) : (node a cs).label = a :=
  rfl

@[simp] theorem children_node (a : α) (cs : List (Rose α)) : (node a cs).children = cs :=
  rfl

theorem label_map (f : α → β) (b : Rose α) : (b.map f).label = f b.label := by
  cases b with
  | node a cs => rfl

theorem labelsAll_eq_flatMap (bs : List (Rose α)) : labelsAll bs = bs.flatMap labels := by
  induction bs with
  | nil => rfl
  | cons b bs ih => rw [labelsAll, ih, List.flatMap_cons]

theorem labelsAll_append (bs cs : List (Rose α)) :
    labelsAll (bs ++ cs) = labelsAll bs ++ labelsAll cs := by
  simp only [labelsAll_eq_flatMap, List.flatMap_append]

theorem mapAll_eq_map (f : α → β) (bs : List (Rose α)) : mapAll f bs = bs.map (map f) := by
  induction bs with
  | nil => rfl
  | cons b bs ih => rw [mapAll, ih, List.map_cons]

theorem mapAll_append (f : α → β) (bs cs : List (Rose α)) :
    mapAll f (bs ++ cs) = mapAll f bs ++ mapAll f cs := by
  simp only [mapAll_eq_map, List.map_append]

mutual

theorem labels_map (f : α → β) : ∀ b : Rose α, (b.map f).labels = b.labels.map f
  | node a cs => by
      rw [map, labels, labels, List.map_cons, labelsAll_mapAll f cs]

theorem labelsAll_mapAll (f : α → β) : ∀ bs : List (Rose α),
    labelsAll (mapAll f bs) = (labelsAll bs).map f
  | [] => rfl
  | b :: bs => by
      rw [mapAll, labelsAll, labelsAll, List.map_append, labels_map f b, labelsAll_mapAll f bs]

end

theorem label_mem_labels (b : Rose α) : b.label ∈ b.labels := by
  cases b with
  | node a cs => exact List.mem_cons_self

theorem height_le_heightAll {b : Rose α} {bs : List (Rose α)} (h : b ∈ bs) :
    b.height ≤ heightAll bs := by
  induction bs with
  | nil => simp at h
  | cons c bs ih =>
      rw [heightAll]
      rcases List.mem_cons.mp h with rfl | h
      · exact Nat.le_max_left _ _
      · exact Nat.le_trans (ih h) (Nat.le_max_right _ _)

mutual

theorem height_le_length : ∀ b : Rose α, b.height ≤ b.labels.length
  | node a cs => by
      rw [height, labels, List.length_cons]
      exact Nat.succ_le_succ (heightAll_le_length cs)

theorem heightAll_le_length : ∀ bs : List (Rose α), heightAll bs ≤ (labelsAll bs).length
  | [] => Nat.le_refl _
  | b :: bs => by
      have hb := height_le_length b
      have hbs := heightAll_le_length bs
      rw [heightAll, labelsAll, List.length_append]
      omega

end

end Rose

end TemplateLogging
