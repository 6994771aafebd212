import TemplateLogging.Proofs.Editing

/-!
What becomes of a subtree in an instrumentation. It is replaced by a forest, and it may send out
variables, which go in front of the nearest open tag around it, and conditional attributes, which go
to the end of that tag. Where there is no open tag, the attributes go to the end of the nearest
template. `Context.receive` is the tree around the subtree once it has got all of that.
-/

namespace TemplateLogging

structure Growth (α : Type) where
  forest : List (Rose α)
  bindings : List (Rose α)
  attributes : List (Rose α)

namespace Growth

variable {α : Type}

def only (b : Rose α) : Growth α :=
  ⟨[b], [], []⟩

def none : Growth α :=
  ⟨[], [], []⟩

instance : Append (Growth α) where
  append g h := ⟨g.forest ++ h.forest, g.bindings ++ h.bindings, g.attributes ++ h.attributes⟩

/-- Variables that go before the nearest open tag, or else stay in place. -/
def bound (inTag : Bool) (bindings : List (Rose α)) : Growth α :=
  if inTag then ⟨[], bindings, []⟩ else ⟨bindings, [], []⟩

/-- The forest under a node that passes on all the rest. -/
def under (g : Growth α) (a : α) : Growth α :=
  ⟨[.node a g.forest], g.bindings, g.attributes⟩

/-- The forest under an open tag, which has the variables before it and takes the attributes. -/
def underTag (g : Growth α) (a : α) : Growth α :=
  ⟨g.bindings ++ [.node a (g.forest ++ g.attributes)], [], []⟩

/-- The forest under a template that stands in no open tag. -/
def underTemplate (g : Growth α) (a : α) : Growth α :=
  ⟨[.node a (g.forest ++ g.attributes)], g.bindings, []⟩

@[simp] theorem forest_append (g h : Growth α) : (g ++ h).forest = g.forest ++ h.forest :=
  rfl

@[simp] theorem bindings_append (g h : Growth α) : (g ++ h).bindings = g.bindings ++ h.bindings :=
  rfl

@[simp] theorem attributes_append (g h : Growth α) :
    (g ++ h).attributes = g.attributes ++ h.attributes :=
  rfl

theorem append_none (g : Growth α) : g ++ none = g := by
  show Growth.mk _ _ _ = _
  simp only [none, List.append_nil]

/-- The forest under a node, which keeps or passes on the rest by its kind and place. -/
def wrap (g : Growth Item) (inTag : Bool) (a : Item) : Growth Item :=
  if a.kind.isOpenTag then g.underTag a
  else if a.kind.isTemplate && !inTag then g.underTemplate a
  else g.under a

theorem wrap_eq_under (g : Growth Item) {a : Item} (inTag : Bool) (htag : a.kind.isOpenTag = false)
    (htemplate : a.kind.isTemplate = false) : g.wrap inTag a = g.under a := by
  rw [wrap, htag, htemplate, Bool.false_and, if_neg Bool.false_ne_true, if_neg Bool.false_ne_true]

end Growth

namespace Context

/-- Whether the open place is in an open tag. -/
def inTag (ctx : Context) : Bool :=
  ctx.items.any (·.kind.isOpenTag)

/-- Whether the open place is in an open tag or a template. -/
def covered (ctx : Context) : Bool :=
  ctx.items.any fun a => a.kind.isOpenTag || a.kind.isTemplate

/-- The outermost node of the context is a file set. -/
def Rooted (ctx : Context) : Prop :=
  ∃ a, ctx.items.getLast? = some a ∧ a.kind = .fileSet

/-- The node that gets the conditional attributes. -/
def target? (ctx : Context) : Option Item :=
  (ctx.items.find? (·.kind.isOpenTag)).or (ctx.items.find? (·.kind.isTemplate))

def receiveInTag (bindings attributes : List Branch) : Context → Context
  | top => top
  | within outer a before after =>
      if a.kind.isOpenTag then within (outer.widen bindings []) a before (after ++ attributes)
      else within (outer.receiveInTag bindings attributes) a before after

def receiveInTemplate (attributes : List Branch) : Context → Context
  | top => top
  | within outer a before after =>
      if a.kind.isTemplate then within outer a before (after ++ attributes)
      else within (outer.receiveInTemplate attributes) a before after

/-- The context after it has got what a subtree at the open place sends out. -/
def receive (ctx : Context) (g : Growth Item) : Context :=
  if ctx.inTag then ctx.receiveInTag g.bindings g.attributes
  else ctx.receiveInTemplate g.attributes

/-- The context after a subtree that was next to the open place, on its left, has grown. -/
def grow (ctx : Context) (g : Growth Item) : Context :=
  (ctx.receive g).widen g.forest []

variable (ctx outer : Context) (a : Item) (before after l r bs : List Branch) (g h : Growth Item)

theorem inTag_within : (within outer a l r).inTag = (a.kind.isOpenTag || outer.inTag) :=
  rfl

theorem covered_within :
    (within outer a l r).covered = (a.kind.isOpenTag || a.kind.isTemplate || outer.covered) :=
  rfl

theorem Rooted.ne_top {ctx : Context} (h : ctx.Rooted) : ctx ≠ top := by
  rintro rfl
  obtain ⟨a, ha, -⟩ := h
  simp [items] at ha

theorem Rooted.within {outer : Context} (h : outer.Rooted) (a : Item) (l r : List Branch) :
    (within outer a l r).Rooted := by
  obtain ⟨b, hb, hkind⟩ := h
  refine ⟨b, ?_, hkind⟩
  rw [items, List.getLast?_cons, hb]
  rfl

theorem Rooted.of_within {outer : Context} {a : Item} {l r : List Branch}
    (h : (Context.within outer a l r).Rooted) (houter : outer ≠ top) : outer.Rooted := by
  obtain ⟨b, hb, hkind⟩ := h
  cases outer with
  | top => exact absurd rfl houter
  | within outer c l' r' =>
      rw [items, List.getLast?_cons_of_ne_nil (by rw [items]; exact List.cons_ne_nil _ _)] at hb
      exact ⟨b, hb, hkind⟩

theorem Rooted.outer_ne_top {outer : Context} {a : Item} {l r : List Branch}
    (h : (Context.within outer a l r).Rooted) (ha : a.kind ≠ .fileSet) : outer ≠ top := by
  rintro rfl
  obtain ⟨b, hb, hkind⟩ := h
  rw [items, items, List.getLast?_singleton, Option.some.injEq] at hb
  subst hb
  exact ha hkind

theorem items_widen : (ctx.widen before after).items = ctx.items := by
  cases ctx <;> rfl

theorem widen_nil : ctx.widen [] [] = ctx := by
  cases ctx with
  | top => rfl
  | within outer a l r => rw [widen, List.append_nil, List.nil_append]

theorem plug_widen_of_ne_top (hctx : ctx ≠ top) :
    (ctx.widen before after).plug bs = ctx.plug (before ++ bs ++ after) := by
  cases ctx with
  | top => exact absurd rfl hctx
  | within outer a l r => exact plug_widen outer a l r before after bs

theorem items_receiveInTag (bindings attributes : List Branch) :
    (ctx.receiveInTag bindings attributes).items = ctx.items := by
  induction ctx with
  | top => rfl
  | within outer a l r ih =>
      rw [receiveInTag]
      split
      · rw [items, items, items_widen]
      · rw [items, items, ih]

theorem items_receiveInTemplate (attributes : List Branch) :
    (ctx.receiveInTemplate attributes).items = ctx.items := by
  induction ctx with
  | top => rfl
  | within outer a l r ih =>
      rw [receiveInTemplate]
      split
      · rw [items, items]
      · rw [items, items, ih]

theorem items_receive : (ctx.receive g).items = ctx.items := by
  rw [receive]
  split
  · exact items_receiveInTag ctx _ _
  · exact items_receiveInTemplate ctx _

@[simp] theorem inTag_receive : (ctx.receive g).inTag = ctx.inTag := by
  rw [inTag, items_receive, inTag]

@[simp] theorem inTag_widen : (ctx.widen before after).inTag = ctx.inTag := by
  rw [inTag, items_widen, inTag]

@[simp] theorem covered_widen : (ctx.widen before after).covered = ctx.covered := by
  rw [covered, items_widen, covered]

theorem Rooted.receive {ctx : Context} (h : ctx.Rooted) (g : Growth Item) :
    (ctx.receive g).Rooted := by
  rwa [Rooted, items_receive]

theorem Rooted.widen {ctx : Context} (h : ctx.Rooted) (before after : List Branch) :
    (ctx.widen before after).Rooted := by
  rwa [Rooted, items_widen]

theorem receive_widen :
    (ctx.widen before after).receive g = (ctx.receive g).widen before after := by
  rw [receive, receive, inTag_widen]
  cases ctx with
  | top => split <;> rfl
  | within outer a l r =>
      split
      · rw [widen, receiveInTag, receiveInTag]
        split
        · rw [widen, List.append_assoc]
        · rw [widen]
      · rw [widen, receiveInTemplate, receiveInTemplate]
        split
        · rw [widen, List.append_assoc]
        · rw [widen]

theorem widen_widen (l' r' : List Branch) :
    (ctx.widen before after).widen l' r' = ctx.widen (before ++ l') (r' ++ after) := by
  cases ctx with
  | top => rfl
  | within outer a l r => rw [widen, widen, widen, List.append_assoc, List.append_assoc]

theorem receiveInTag_receiveInTag (bindings attributes bindings' attributes' : List Branch) :
    (ctx.receiveInTag bindings attributes).receiveInTag bindings' attributes' =
      ctx.receiveInTag (bindings ++ bindings') (attributes ++ attributes') := by
  induction ctx with
  | top => rfl
  | within outer a l r ih =>
      rw [receiveInTag, receiveInTag]
      split
      · rename_i ha
        rw [receiveInTag, if_pos ha, widen_widen, List.append_assoc, List.append_nil]
      · rename_i ha
        rw [receiveInTag, if_neg ha, ih]

theorem receiveInTemplate_receiveInTemplate (attributes attributes' : List Branch) :
    (ctx.receiveInTemplate attributes).receiveInTemplate attributes' =
      ctx.receiveInTemplate (attributes ++ attributes') := by
  induction ctx with
  | top => rfl
  | within outer a l r ih =>
      rw [receiveInTemplate, receiveInTemplate]
      split
      · rename_i ha
        rw [receiveInTemplate, if_pos ha, List.append_assoc]
      · rename_i ha
        rw [receiveInTemplate, if_neg ha, ih]

theorem receive_receive : (ctx.receive g).receive h = ctx.receive (g ++ h) := by
  rw [receive, inTag_receive, receive, receive]
  split
  · exact receiveInTag_receiveInTag ctx _ _ _ _
  · exact receiveInTemplate_receiveInTemplate ctx _ _

theorem receiveInTag_nil : ctx.receiveInTag [] [] = ctx := by
  induction ctx with
  | top => rfl
  | within outer a l r ih =>
      rw [receiveInTag]
      split
      · rw [widen_nil, List.append_nil]
      · rw [ih]

theorem receiveInTemplate_nil : ctx.receiveInTemplate [] = ctx := by
  induction ctx with
  | top => rfl
  | within outer a l r ih =>
      rw [receiveInTemplate]
      split
      · rw [List.append_nil]
      · rw [ih]

theorem receive_forest (forest : List Branch) : ctx.receive ⟨forest, [], []⟩ = ctx := by
  rw [receive]
  split
  · exact receiveInTag_nil ctx
  · exact receiveInTemplate_nil ctx

theorem items_grow : (ctx.grow g).items = ctx.items := by
  rw [grow, items_widen, items_receive]

@[simp] theorem inTag_grow : (ctx.grow g).inTag = ctx.inTag := by
  rw [inTag, items_grow, inTag]

@[simp] theorem covered_grow : (ctx.grow g).covered = ctx.covered := by
  rw [covered, items_grow, covered]

theorem target?_grow : (ctx.grow g).target? = ctx.target? := by
  rw [target?, items_grow, target?]

theorem Rooted.grow {ctx : Context} (h : ctx.Rooted) (g : Growth Item) : (ctx.grow g).Rooted := by
  rwa [Rooted, items_grow]

theorem grow_none : ctx.grow .none = ctx := by
  rw [Context.grow, Growth.none, receive_forest, widen_nil]

theorem grow_grow : (ctx.grow g).grow h = ctx.grow (g ++ h) := by
  rw [grow, grow, receive_widen, widen_widen, receive_receive]
  rfl

theorem grow_widen : (ctx.widen [] after).grow g = (ctx.grow g).widen [] after := by
  rw [grow, grow, receive_widen, widen_widen, widen_widen, List.append_nil, List.append_nil]
  rfl

theorem plug_grow_nil (hctx : ctx ≠ top) :
    (ctx.grow g).plug [] = (ctx.receive g).plug g.forest := by
  cases hreceive : ctx.receive g with
  | top =>
      have hitems := ctx.items_receive g
      rw [hreceive] at hitems
      cases ctx with
      | top => exact absurd rfl hctx
      | within outer a l r => cases hitems
  | within outer a l r =>
      rw [grow, hreceive, plug_widen, List.append_nil, List.append_nil]

theorem receive_within (g : Growth Item) (htag : a.kind.isOpenTag = false)
    (htemplate : a.kind.isTemplate = false) :
    (within ctx a l r).receive g = within (ctx.receive g) a l r := by
  rw [receive, receive, inTag_within, htag, Bool.false_or, receiveInTag, receiveInTemplate,
    htag, htemplate, if_neg Bool.false_ne_true, if_neg Bool.false_ne_true]
  split
  · rfl
  · rfl

theorem plug_grow_within (hctx : ctx ≠ top) :
    ((within ctx a [] []).grow g).plug [] = (ctx.grow (g.wrap ctx.inTag a)).plug [] := by
  rw [plug_grow_nil _ _ (by simp), plug_grow_nil _ _ hctx, Growth.wrap]
  cases htag : a.kind.isOpenTag with
  | true =>
      -- An open tag keeps the attributes and has the variables before it: nothing goes further.
      have hreceive : ctx.receive (g.underTag a) = ctx := ctx.receive_forest _
      rw [if_pos rfl, hreceive, receive, inTag_within, htag, Bool.true_or, if_pos rfl, receiveInTag,
        htag, if_pos rfl, plug, plug_widen_of_ne_top _ _ _ _ hctx, List.append_nil]
      rfl
  | false =>
      rw [if_neg Bool.false_ne_true]
      cases htemplate : a.kind.isTemplate with
      | false =>
          rw [receive_within _ _ _ _ _ htag htemplate, plug, List.append_nil]
          rfl
      | true =>
          rw [receive, receive, inTag_within, htag, Bool.false_or]
          cases ctx.inTag with
          | true =>
              -- A template inside of an open tag passes everything on to the tag.
              rw [if_pos rfl, if_pos rfl, receiveInTag, htag, if_neg Bool.false_ne_true, plug,
                List.append_nil]
              rfl
          | false =>
              rw [if_neg Bool.false_ne_true, if_neg Bool.false_ne_true, receiveInTemplate,
                htemplate, if_pos rfl, plug]
              show _ = (ctx.receiveInTemplate []).plug _
              rw [receiveInTemplate_nil]
              rfl

theorem find?_isOpenTag_eq_none (hctx : ctx.inTag = false) :
    ctx.items.find? (·.kind.isOpenTag) = none := by
  rw [List.find?_eq_none]
  intro a ha htag
  rw [inTag, List.any_eq_false] at hctx
  exact hctx a ha htag

theorem exists_target (hctx : ctx.covered = true) : ∃ target, ctx.target? = some target := by
  obtain ⟨a, ha, hkind⟩ := List.any_eq_true.mp hctx
  rw [Bool.or_eq_true] at hkind
  apply Option.isSome_iff_exists.mp
  rw [target?, Option.isSome_or, Bool.or_eq_true, List.find?_isSome, List.find?_isSome]
  rcases hkind with htag | htemplate
  · exact Or.inl ⟨a, ha, htag⟩
  · exact Or.inr ⟨a, ha, htemplate⟩

/-- The nearest open tag, with all that stands in it, seen from outside. -/
theorem exists_tag (hctx : ctx.inTag = true) : ∃ (tag : Item) (outer : Context),
    ctx.items.find? (·.kind.isOpenTag) = some tag ∧ (ctx.Rooted → outer.Rooted) ∧
      ∀ bs, ∃ cs, ctx.plug bs = outer.plug [.node tag cs] ∧ ∀ bindings attributes,
        (ctx.receiveInTag bindings attributes).plug bs =
          (outer.widen bindings []).plug [.node tag (cs ++ attributes)] := by
  induction ctx with
  | top => exact absurd hctx (by simp [inTag, items])
  | within outer a l r ih =>
      rw [inTag_within, Bool.or_eq_true] at hctx
      by_cases ha : a.kind.isOpenTag = true
      · refine ⟨a, outer, ?_, ?_, ?_⟩
        · rw [items, List.find?_cons_of_pos (p := fun b : Item => b.kind.isOpenTag) ha]
        · intro hrooted
          refine hrooted.of_within (hrooted.outer_ne_top ?_)
          intro hkind
          rw [hkind] at ha
          exact Bool.false_ne_true ha
        · intro bs
          refine ⟨l ++ bs ++ r, rfl, ?_⟩
          intro bindings attributes
          rw [receiveInTag, if_pos ha, plug, List.append_assoc, List.append_assoc,
            List.append_assoc]
      · have houter : outer.inTag = true := hctx.resolve_left ha
        obtain ⟨tag, rest, hfind, hrest, hplug⟩ := ih houter
        refine ⟨tag, rest, ?_, ?_, ?_⟩
        · rw [items, List.find?_cons_of_neg (p := fun b : Item => b.kind.isOpenTag) ha, hfind]
        · intro hrooted
          refine hrest (hrooted.of_within ?_)
          rintro rfl
          exact absurd houter (by simp [inTag, items])
        · intro bs
          obtain ⟨cs, hcs, hreceive⟩ := hplug [.node a (l ++ bs ++ r)]
          refine ⟨cs, hcs, ?_⟩
          intro bindings attributes
          rw [receiveInTag, if_neg ha, plug]
          exact hreceive bindings attributes

theorem exists_template {template : Item}
    (hctx : ctx.items.find? (·.kind.isTemplate) = some template) :
    ∃ outer : Context, ∀ bs, ∃ cs, ctx.plug bs = outer.plug [.node template cs] ∧ ∀ attributes,
      (ctx.receiveInTemplate attributes).plug bs =
        outer.plug [.node template (cs ++ attributes)] := by
  induction ctx with
  | top => exact absurd hctx (by simp [items])
  | within outer a l r ih =>
      rw [items] at hctx
      by_cases ha : a.kind.isTemplate = true
      · rw [List.find?_cons_of_pos (p := fun b : Item => b.kind.isTemplate) ha,
          Option.some.injEq] at hctx
        subst hctx
        refine ⟨outer, ?_⟩
        intro bs
        refine ⟨l ++ bs ++ r, rfl, ?_⟩
        intro attributes
        rw [receiveInTemplate, if_pos ha, plug, List.append_assoc, List.append_assoc,
          List.append_assoc]
      · rw [List.find?_cons_of_neg (p := fun b : Item => b.kind.isTemplate) ha] at hctx
        obtain ⟨rest, hplug⟩ := ih hctx
        refine ⟨rest, ?_⟩
        intro bs
        obtain ⟨cs, hcs, hreceive⟩ := hplug [.node a (l ++ bs ++ r)]
        refine ⟨cs, hcs, ?_⟩
        intro attributes
        rw [receiveInTemplate, if_neg ha, plug]
        exact hreceive attributes

end Context

end TemplateLogging
