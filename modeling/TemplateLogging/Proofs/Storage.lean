import TemplateLogging.Proofs.Records
import TemplateLogging.Proofs.WellFormed

namespace TemplateLogging

namespace TableEntries

variable {α : Type}

theorem insert_eq_append {entries : List (NodeId × α)} {id : NodeId}
    (h : ∀ e ∈ entries, e.1.index < id.index) (a : α) :
    insert entries id a = entries ++ [(id, a)] := by
  induction entries with
  | nil => rfl
  | cons e entries ih =>
      obtain ⟨key, b⟩ := e
      have hlt : key.index < id.index := h (key, b) List.mem_cons_self
      have hne : key ≠ id := fun heq => Nat.lt_irrefl _ (heq ▸ hlt)
      rw [insert, if_neg (Nat.lt_asymm hlt), if_neg hne,
        ih fun e he => h e (List.mem_cons_of_mem _ he)]
      rfl

end TableEntries

namespace Tree

variable {t : Tree}

/-- What the text of a tree can hold: numbers with 32 bits, expressions without doubles, and no more
levels than the reader goes down. -/
structure Storable (t : Tree) : Prop where
  next : t.ids.next ≤ maxWord
  location : ∀ id node, t.get? id = some node → node.location.FitsWords
  exprs : ∀ id node, t.get? id = some node → ∀ e ∈ node.kind.exprs, e.hasFloat = false
  depth : t.toJson.depth ≤ Json.maxDepth

/-- The members of the node table in the text of a tree. -/
def nodeMembers (t : Tree) : List (Json.Key × Json) :=
  t.nodes.entries.map fun (key, node) => (key.toKey, node.toJson)

theorem foldlM_insertMember? {es : List (NodeId × Node)}
    (hes : ∀ e ∈ es, e.1.index ≤ maxWord ∧ e.2.Storable) (nodes : Table Node)
    (hascending : TableEntries.Ascending (nodes.entries ++ es)) :
    (es.map fun (key, node) => (key.toKey, node.toJson)).foldlM insertMember? nodes =
      some ⟨nodes.entries ++ es, hascending⟩ := by
  induction es generalizing nodes with
  | nil =>
      simp only [List.append_nil]
      rfl
  | cons e es ih =>
      obtain ⟨key, node⟩ := e
      obtain ⟨hkey, hnode⟩ := hes (key, node) List.mem_cons_self
      have hlt : ∀ e ∈ nodes.entries, e.1.index < key.index := by
        intro e he
        exact (List.pairwise_append.mp hascending).2.2 e he (key, node) List.mem_cons_self
      have hentries : (nodes.insert key node).entries = nodes.entries ++ [(key, node)] :=
        TableEntries.insert_eq_append hlt node
      have hinsert : insertMember? nodes (key.toKey, node.toJson) =
          some (nodes.insert key node) := by
        rw [insertMember?, NodeId.ofKey?_toKey hkey, hnode.ofJson?_toJson]
        rfl
      have hrest : (nodes.insert key node).entries ++ es = nodes.entries ++ (key, node) :: es := by
        rw [hentries, List.append_assoc, List.singleton_append]
      rw [List.map_cons, List.foldlM_cons, hinsert]
      show (es.map _).foldlM insertMember? (nodes.insert key node) = _
      rw [ih (fun e he => hes e (List.mem_cons_of_mem _ he)) _ (hrest ▸ hascending)]
      simp only [hrest]

theorem Storable.node (h : t.Storable) (hlinks : t.linkProblem? = none)
    (hfresh : ∀ id node, t.get? id = some node → id.index < t.ids.next) {id : NodeId} {node : Node}
    (hget : t.get? id = some node) : id.index ≤ maxWord ∧ node.Storable := by
  have hword : ∀ id node, t.get? id = some node → id.index ≤ maxWord := by
    intro id node hget
    exact Nat.le_of_lt (Nat.lt_of_lt_of_le (hfresh id node hget) h.next)
  obtain ⟨hid, hparent, hchildren⟩ := (linkProblem?_eq_none_iff.mp hlinks).2 id node hget
  subst hid
  refine ⟨hword _ _ hget, hword _ _ hget, h.location _ _ hget, ?_, ?_, h.exprs _ _ hget⟩
  · intro parent hnames
    have hlists := hparent parent hnames
    rw [children] at hlists
    cases hget' : t.get? parent with
    | none =>
        rw [hget'] at hlists
        cases hlists
    | some m => exact hword parent m hget'
  · intro child hchild
    obtain ⟨m, hget', -⟩ := Option.bind_eq_some_iff.mp (hchildren child hchild)
    exact hword child m hget'

/-- The root, the next id and the table of nodes can be written, whatever the links are. -/
structure Writable (t : Tree) : Prop where
  root : t.root.index ≤ maxWord
  next : t.ids.next ≤ maxWord
  entries : ∀ e ∈ t.nodes.entries, e.1.index ≤ maxWord ∧ e.2.Storable

theorem Storable.writable (h : t.Storable) (hlinks : t.linkProblem? = none)
    (hfresh : ∀ id node, t.get? id = some node → id.index < t.ids.next) : t.Writable where
  root := by
    obtain ⟨root, hroot, -⟩ := (linkProblem?_eq_none_iff.mp hlinks).1
    exact (h.node hlinks hfresh hroot).1
  next := h.next
  entries _ hentry := h.node hlinks hfresh (Table.mem_entries_iff.mp hentry)

theorem Writable.ofJson?_toJson (h : t.Writable) : ofJson? t.toJson = some t := by
  have hnodes : t.nodeMembers.foldlM insertMember? Table.empty = some t.nodes :=
    foldlM_insertMember? h.entries Table.empty t.nodes.ascending
  have hids : IdSource.ofJson? t.ids.toJson = some t.ids := by
    have hfield : t.ids.toJson.oneField? "nextId" = some (.int t.ids.next) := rfl
    rw [IdSource.ofJson?, hfield, Option.bind_eq_bind, Option.bind_some, toWord?_int h.next]
    rfl
  have hfields : t.toJson.fields? [.required "root", .required "nodes", .required "idGen"] =
      some [some t.root.toJson, some (.obj t.nodeMembers), some t.ids.toJson] := rfl
  rw [ofJson?, hfields]
  simp only [NodeId.ofJson?_toJson h.root, Json.toMembers?, hids]
  show (do
    let nodes ← t.nodeMembers.foldlM insertMember? Table.empty
    return Tree.mk t.root nodes t.ids) = _
  rw [hnodes]
  rfl

theorem Writable.isPlain_toJson (h : t.Writable) : t.toJson.IsPlain := by
  have hnodes : Json.ArePlainMembers t.nodeMembers := by
    apply Json.arePlainMembers_map
    rintro ⟨key, node⟩ hentry
    exact ⟨key.isPlain_toKey, (h.entries _ hentry).2.isPlain_toJson⟩
  have hids : t.ids.toJson.IsPlain := ⟨by decide, isPlain_word h.next, trivial⟩
  exact ⟨by decide, isPlain_word h.root, by decide, hnodes, by decide, hids, trivial⟩

/-- Reading the text leaves only the check of the links and the ids to be done. -/
theorem Writable.load_store_eq_checked (h : t.Writable) (hdepth : t.toJson.depth ≤ Json.maxDepth) :
    load t.store = t.checked := by
  rw [load, store, Json.parse?_text h.isPlain_toJson hdepth, Option.bind_some, h.ofJson?_toJson]

theorem Storable.load_store_eq_checked (h : t.Storable) (hlinks : t.linkProblem? = none)
    (hfresh : ∀ id node, t.get? id = some node → id.index < t.ids.next) :
    load t.store = t.checked :=
  (h.writable hlinks hfresh).load_store_eq_checked h.depth

theorem maxIndex_lt {n : Nat} (hpos : 0 < n)
    (h : ∀ id node, t.get? id = some node → id.index < n) : t.maxIndex < n := by
  have hfold : ∀ (ns : List Nat) (m : Nat), (∀ k ∈ ns, k < n) → m < n → ns.foldl max m < n := by
    intro ns
    induction ns with
    | nil => exact fun m _ hm => hm
    | cons k ns ih =>
        intro m hns hm
        exact ih _ (fun l hl => hns l (List.mem_cons_of_mem _ hl))
          (max_lt hm (hns k List.mem_cons_self))
  refine hfold _ 0 ?_ hpos
  intro k hk
  obtain ⟨key, hkey, rfl⟩ := List.mem_map.mp hk
  obtain ⟨⟨_, node⟩, hentry, rfl⟩ := List.mem_map.mp hkey
  exact h _ node (Table.mem_entries_iff.mp hentry)

theorem checked_eq_self (hlinks : t.linkProblem? = none)
    (hfresh : ∀ id node, t.get? id = some node → id.index < t.ids.next)
    (hnext : t.ids.next ≤ maxWord) : t.checked = .ok t := by
  obtain ⟨root, hroot, -⟩ := (linkProblem?_eq_none_iff.mp hlinks).1
  have hmax : t.maxIndex < t.ids.next :=
    maxIndex_lt (Nat.lt_of_le_of_lt (Nat.zero_le _) (hfresh _ _ hroot)) hfresh
  have hids : (⟨max (t.maxIndex + 1) t.ids.next⟩ : IdSource) = t.ids := by
    rw [Nat.max_eq_right hmax]
  rw [checked, hlinks]
  simp only
  rw [if_pos (Nat.lt_of_lt_of_le hmax hnext), hids]

/-- A tree with sound links and a next id past all ids in use comes back from its own text. -/
theorem load_store (hlinks : t.linkProblem? = none)
    (hfresh : ∀ id node, t.get? id = some node → id.index < t.ids.next) (h : t.Storable) :
    load t.store = .ok t := by
  rw [h.load_store_eq_checked hlinks hfresh, checked_eq_self hlinks hfresh h.next]

theorem storable_page : (page (some 7)).Storable := by
  have hentries : ∀ e ∈ (page (some 7)).nodes.entries,
      e.2.location.FitsWords ∧ ∀ x ∈ e.2.kind.exprs, x.hasFloat = false := by decide
  refine ⟨by decide, ?_, ?_, by decide⟩
  · intro id node hget
    exact (hentries _ (Table.mem_entries_iff.mpr hget)).1
  · intro id node hget
    exact (hentries _ (Table.mem_entries_iff.mpr hget)).2

theorem load_store_page : (page (some 7)).linkProblem? = none ∧
    load (page (some 7)).store = .ok (page (some 7)) := by
  have hwf : (page (some 7)).WellFormed := by decide
  exact ⟨hwf.links, load_store hwf.links hwf.fresh storable_page⟩

end Tree

end TemplateLogging
