import TemplateLogging.Proofs.Rewriting

namespace TemplateLogging

namespace Rose

/-- The contracts of a single node, which stands in an open tag or a template if it is `covered`. -/
def Sound (covered : Bool) (a : Item) (cs : List Branch) : Prop :=
  match a.kind with
  | .logBlock block =>
      block.loggingId.isSome = true ∧ ∃ tag rest, cs = tag :: rest ∧ tag.kind.isOpenTag = true
  | .htmlAttribute =>
      valueCalls cs ≠ [] → (valueCalls cs).length ≤ 1 ∧ covered = true
  | _ => True

mutual

/-- The contracts of all nodes of a branch. -/
def Ready (covered : Bool) : Branch → Prop
  | node a cs =>
      Sound covered a cs ∧ ReadyAll (a.kind.isOpenTag || a.kind.isTemplate || covered) cs

def ReadyAll (covered : Bool) : List Branch → Prop
  | [] => True
  | b :: bs => b.Ready covered ∧ ReadyAll covered bs

end

/-- A file that is a dependency, or a branch whose contracts are kept. -/
def FileReady (b : Branch) : Prop :=
  b.kind.isDependencyFile = true ∨ b.Ready false

end Rose

open Rose

theorem exists_path_of_isDependencyFile {k : NodeKind} (h : k.isDependencyFile = true) :
    ∃ path, k = .file path .dependency := by
  cases k with
  | file path kind =>
      cases kind with
      | dependency => exact ⟨path, rfl⟩
      | source => cases h
  | _ => cases h

theorem rewrite_of_isDependencyFile {o : InstrumentOptions} {inTag : Bool} {mark : Option Mark}
    {b : Branch} (h : b.kind.isDependencyFile = true) : rewrite o inTag mark b = .still [b] := by
  obtain ⟨a, cs⟩ := b
  rw [kind_node] at h
  obtain ⟨path, hkind⟩ := exists_path_of_isDependencyFile h
  exact rewrite_dependency hkind

/-- The property of branches, in an open tag or not and covered or not, goes upwards. -/
structure Hereditary (P : Bool → Bool → Branch → Prop) (Q : Bool → Bool → List Branch → Prop) :
    Prop where
  nil {inTag covered} : Q inTag covered []
  cons {inTag covered b bs} (hb : P inTag covered b) (hbs : Q inTag covered bs) :
    Q inTag covered (b :: bs)
  dependency {inTag covered a cs path} (hkind : a.kind = .file path .dependency) :
    P inTag covered (.node a cs)
  source {inTag covered a cs path} (hkind : a.kind = .file path .source)
    (hcs : Q inTag covered cs) : P inTag covered (.node a cs)
  template {inTag covered a cs name contentKind} (hkind : a.kind = .template name contentKind)
    (hcs : Q inTag true cs) : P inTag covered (.node a cs)
  openTag {inTag covered a cs} (htag : a.kind.isOpenTag = true) (hcs : Q true true cs) :
    P inTag covered (.node a cs)
  block {inTag covered a block tag attrs rest} (hkind : a.kind = .logBlock block)
    (hid : block.loggingId.isSome = true) (htag : tag.kind.isOpenTag = true)
    (hattrs : Q true true attrs) (hrest : Q inTag covered rest) :
    P inTag covered (.node a (.node tag attrs :: rest))
  unmoved {inTag covered a cs} (hkind : a.kind = .htmlAttribute) (hcalls : valueCalls cs = [])
    (hcs : Q inTag covered cs) : P inTag covered (.node a cs)
  moved {inTag a name value rest call} (hkind : a.kind = .htmlAttribute)
    (hcalls : value.loggingCalls = [call]) (hname : P inTag true name) (hrest : Q inTag true rest) :
    P inTag true (.node a (name :: value :: rest))
  plain {inTag covered a cs} (hplain : a.kind.isPlain = true) (hcs : Q inTag covered cs) :
    P inTag covered (.node a cs)

namespace Hereditary

variable {P : Bool → Bool → Branch → Prop} {Q : Bool → Bool → List Branch → Prop}

mutual

theorem of_ready (h : Hereditary P Q) : ∀ {b : Branch} {inTag covered : Bool}, b.Ready covered →
    P inTag covered b
  | .node a cs, inTag, covered, hready => by
      obtain ⟨hsound, hready⟩ := hready
      rw [Sound] at hsound
      cases hkind : a.kind with
      | file path kind =>
          rw [hkind] at hready
          cases kind with
          | dependency => exact h.dependency hkind
          | source => exact h.source hkind (of_readyAll h hready)
      | template name contentKind =>
          rw [hkind] at hready
          exact h.template hkind (of_readyAll h hready)
      | openTag name selfClosing =>
          rw [hkind] at hready
          refine h.openTag ?_ (of_readyAll h hready)
          rw [hkind]
          rfl
      | logBlock block =>
          rw [hkind] at hsound hready
          cases cs with
          | nil =>
              obtain ⟨-, _, _, hcs, -⟩ := hsound
              cases hcs
          | cons tag rest =>
              obtain ⟨hid, _, _, hcs, htag⟩ := hsound
              cases hcs
              have hrest : Q inTag covered rest := of_readyAll h hready.2
              -- The tag is taken apart, since it grows with a marker and not on its own.
              cases tag with
              | node tag attrs =>
                  have hattrs := hready.1.2
                  rw [kind_node] at htag
                  rw [htag] at hattrs
                  exact h.block hkind hid htag (of_readyAll h hattrs) hrest
      | htmlAttribute =>
          rw [hkind] at hsound hready
          cases hcalls : valueCalls cs with
          | nil => exact h.unmoved hkind hcalls (of_readyAll h hready)
          | cons call calls =>
              obtain ⟨hone, rfl⟩ := hsound (by simp [hcalls])
              rw [hcalls, List.length_cons] at hone
              obtain rfl : calls = [] := List.length_eq_zero_iff.mp (by omega)
              cases cs with
              | nil => cases hcalls
              | cons name cs =>
                  cases cs with
                  | nil => cases hcalls
                  | cons value rest =>
                      exact h.moved hkind hcalls (of_ready h hready.1) (of_readyAll h hready.2.2)
      | _ =>
          have hplain : a.kind.isPlain = true := by
            rw [hkind]
            rfl
          rw [NodeKind.isOpenTag_of_isPlain hplain, NodeKind.isTemplate_of_isPlain hplain] at hready
          exact h.plain hplain (of_readyAll h hready)

theorem of_readyAll (h : Hereditary P Q) : ∀ {bs : List Branch} {inTag covered : Bool},
    ReadyAll covered bs → Q inTag covered bs
  | [], _, _, _ => h.nil
  | _ :: _, _, _, hready => h.cons (of_ready h hready.1) (of_readyAll h hready.2)

end

theorem of_files (h : Hereditary P Q) {bs : List Branch} (hready : ∀ b ∈ bs, b.FileReady) :
    Q false false bs := by
  induction bs with
  | nil => exact h.nil
  | cons b bs ih =>
      refine h.cons ?_ (ih fun c hc => hready c (List.mem_cons_of_mem _ hc))
      rcases hready b List.mem_cons_self with hdep | hb
      · obtain ⟨a, cs⟩ := b
        obtain ⟨path, hkind⟩ := exists_path_of_isDependencyFile hdep
        exact h.dependency hkind
      · exact h.of_ready hb

end Hereditary

end TemplateLogging
