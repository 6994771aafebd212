import TemplateLogging.Instrument.Basic
import TemplateLogging.Proofs.Preflight

namespace TemplateLogging.Tree

open Rose

variable {t : Tree} {root : NodeId} {next : Nat} {others : Multiset Node} {a : Item}
  {cs : List Branch} {o : InstrumentOptions}

theorem Holds.heightAll_lt_size (h : t.Holds root next ((Rose.node a cs).nodes none + others)) :
    heightAll cs < t.size := by
  have hsize := h.height_le_size
  rwa [height] at hsize

theorem Holds.takes_instrument (h : t.Holds root next ((Rose.node a cs).nodes none + others))
    (hroot : a.id = root) (hkind : a.kind = .fileSet) (hready : ∀ b ∈ cs, b.FileReady) :
    Takes next (rewriteAll o false cs (.start next)).2.next (t.instrument o) fun r =>
      r.1 = .ok (rewriteAll o false cs (.start next)).2.report ∧
        r.2.Holds root (rewriteAll o false cs (.start next)).2.next
          ((Rose.node a (rewriteAll o false cs (.start next)).1.forest).nodes none + others) := by
  have hpreflight : t.preflight? = .ok none :=
    (h.answers_preflight? hroot).eq_none ((h.files_ready_iff hroot hkind).mpr hready)
  rw [instrument, hpreflight]
  have hlt := h.heightAll_lt_size
  rw [← nodesAll_singleton] at h
  refine (h.instrumentWithin hroot hkind hready (by omega)).mono ?_
  rintro ⟨result, t'⟩ - ⟨hresult, hholds⟩
  rw [nodesAll_singleton] at hholds
  exact ⟨hresult, hholds⟩

/-- Either the check reports a node and nothing is done, or all files are ready. -/
theorem Holds.preflight?_cases (h : t.Holds root next ((Rose.node a cs).nodes none + others))
    (hroot : a.id = root) (hkind : a.kind = .fileSet) :
    (∃ fault, t.preflight? = .ok (some fault) ∧ t.Reports t.sourceNodes fault) ∨
      t.preflight? = .ok none ∧ ∀ b ∈ cs, b.FileReady := by
  have hanswers := h.answers_preflight? hroot
  generalize hpreflight : t.preflight? = r at hanswers
  cases hanswers with
  | none hkeeps => exact Or.inr ⟨rfl, (h.files_ready_iff hroot hkind).mp hkeeps⟩
  | some hreports => exact Or.inl ⟨_, rfl, hreports⟩

theorem Holds.fileReady_of_preflight (h : t.Holds root next ((Rose.node a cs).nodes none + others))
    (hroot : a.id = root) (hkind : a.kind = .fileSet) (hpreflight : t.preflight? = .ok none) :
    ∀ b ∈ cs, b.FileReady := by
  rcases h.preflight?_cases hroot hkind with ⟨fault, hfault, -⟩ | ⟨-, hready⟩
  · rw [hpreflight] at hfault
    cases hfault
  · exact hready

theorem instrument_of_fault {fault : CompilerFault} (h : t.preflight? = .ok (some fault)) :
    t.instrument o = .ok (.error fault, t) := by
  rw [instrument, h]
  rfl

theorem next_le_rewriteAll (hready : ∀ b ∈ cs, b.FileReady) (o : InstrumentOptions) (next : Nat) :
    next ≤ (rewriteAll o false cs (.start next)).2.next :=
  ((hereditary_performs o).of_files hready _ (Nat.le_refl _)).le (.start next)

theorem Holds.instrument_ok_or_exhausted
    (h : t.Holds root next ((Rose.node a cs).nodes none + others)) (hroot : a.id = root)
    (hkind : a.kind = .fileSet) (hready : ∀ b ∈ cs, b.FileReady) :
    (∃ t', t.instrument o = .ok (.ok (rewriteAll o false cs (.start next)).2.report, t') ∧
      t'.Holds root (rewriteAll o false cs (.start next)).2.next
        ((Rose.node a (rewriteAll o false cs (.start next)).1.forest).nodes none + others)) ∨
      t.instrument o = .error .idsExhausted := by
  refine ((h.takes_instrument hroot hkind hready).ok_or_exhausted
    (next_le_rewriteAll hready o next)).imp_left ?_
  rintro ⟨⟨result, t'⟩, hrun, rfl, hholds⟩
  exact ⟨t', hrun, hholds⟩

/-- The next id after an instrumentation, if there are enough. -/
def nextAfter (t : Tree) (o : InstrumentOptions) : Nat :=
  (rewriteAll o false (t.read t.size t.root) (.start t.ids.next)).2.next

theorem instrument_ok_of_le (hwf : t.WellFormed) (hpreflight : t.preflight? = .ok none)
    (hids : t.nextAfter o ≤ maxWord) : ∃ report t', t.instrument o = .ok (.ok report, t') := by
  obtain ⟨a, cs, others, hroot, hkind, h, -⟩ := hwf.exists_holds
  have hready := h.fileReady_of_preflight hroot hkind hpreflight
  have hnext : t.nextAfter o = (rewriteAll o false cs (.start t.ids.next)).2.next := by
    rw [nextAfter, h.read_eq hroot, rewriteAll_cons, rewriteAll_nil,
      rewrite_plain (NodeKind.isPlain_of_fileSet hkind)]
    rfl
  rw [hnext] at hids
  obtain ⟨⟨result, t'⟩, hrun, rfl, -⟩ := (h.takes_instrument hroot hkind hready).ok (Or.inr hids)
  exact ⟨_, t', hrun⟩

theorem instrument_page :
    ∃ report t', (page (some 7)).instrument {} = .ok (.ok report, t') := by
  apply instrument_ok_of_le
  · decide
  · rfl
  · decide

theorem WellFormed.exists_run (hwf : t.WellFormed) {report : InstrumentReport} {t' : Tree}
    (hrun : t.instrument o = .ok (.ok report, t')) :
    ∃ (a : Item) (cs : List Branch) (others : Multiset Node),
      a.id = t.root ∧ a.kind = .fileSet ∧ Closed others ∧ (∀ b ∈ cs, b.FileReady) ∧
        t.Holds t.root t.ids.next ((Rose.node a cs).nodes none + others) ∧
          report = (rewriteAll o false cs (.start t.ids.next)).2.report ∧
            t'.Holds t.root (rewriteAll o false cs (.start t.ids.next)).2.next
              ((Rose.node a (rewriteAll o false cs (.start t.ids.next)).1.forest).nodes none +
                others) := by
  obtain ⟨a, cs, others, hroot, hkind, h, hclosed⟩ := hwf.exists_holds
  rcases h.preflight?_cases hroot hkind with ⟨fault, hfault, -⟩ | ⟨-, hready⟩
  · rw [instrument_of_fault hfault] at hrun
    cases hrun
  · refine ⟨a, cs, others, hroot, hkind, hclosed, hready, h, ?_⟩
    rcases h.instrument_ok_or_exhausted (o := o) hroot hkind hready with ⟨t'', hok, h'⟩ | hfail
    · rw [hok] at hrun
      cases hrun
      exact ⟨rfl, h'⟩
    · rw [hfail] at hrun
      cases hrun

/-- An instrumentation is refused exactly when a node in a source file breaks a contract. It then
reports the first such node and leaves the tree alone. Otherwise it goes all the way, unless there
are too few ids. -/
theorem instrument_refuses_iff (hwf : t.WellFormed) (o : InstrumentOptions) :
    ((∃ fault t', t.instrument o = .ok (.error fault, t')) ↔
      ∃ file ∈ t.children t.root, (∀ path, t.kind file ≠ .ok (.file path .dependency)) ∧
        ∃ id, t.Below file id ∧ ∃ contract message, t.Breaks id contract message) ∧
    (∀ fault t', t.instrument o = .ok (.error fault, t') →
      t.Reports t.sourceNodes fault ∧ fault.code ≠ Contract.attributeNamed.code ∧ t' = t) ∧
    ((∃ fault, t.preflight? = .ok (some fault) ∧ t.instrument o = .ok (.error fault, t)) ∨
      t.preflight? = .ok none ∧ ((∃ report t', t.instrument o = .ok (.ok report, t')) ∨
        t.instrument o = .error .idsExhausted)) := by
  obtain ⟨a, cs, others, hroot, hkind, h, -⟩ := hwf.exists_holds
  have hsource : (∃ id ∈ t.sourceNodes, ∃ contract message, t.Breaks id contract message) ↔
      ∃ file ∈ t.children t.root, (∀ path, t.kind file ≠ .ok (.file path .dependency)) ∧
        ∃ id, t.Below file id ∧ ∃ contract message, t.Breaks id contract message := by
    simp only [hwf.mem_sourceNodes_iff]
    constructor
    · rintro ⟨id, ⟨file, hfile, hdep, hbelow⟩, hbreaks⟩
      exact ⟨file, hfile, hdep, id, hbelow, hbreaks⟩
    · rintro ⟨file, hfile, hdep, id, hbelow, hbreaks⟩
      exact ⟨id, ⟨file, hfile, hdep, hbelow⟩, hbreaks⟩
  rw [← hsource]
  rcases h.preflight?_cases hroot hkind with ⟨fault, hpreflight, hreports⟩ | ⟨hpreflight, hready⟩
  · have hrun : t.instrument o = .ok (.error fault, t) := instrument_of_fault hpreflight
    refine ⟨⟨fun _ => hreports.not_keeps, fun _ => ⟨fault, t, hrun⟩⟩, ?_,
      Or.inl ⟨fault, hpreflight, hrun⟩⟩
    intro fault' t' hrun'
    rw [hrun] at hrun'
    cases hrun'
    exact ⟨hreports, hreports.code_ne, rfl⟩
  · have hrun := h.instrument_ok_or_exhausted (o := o) hroot hkind hready
    have hrun : (∃ report t', t.instrument o = .ok (.ok report, t')) ∨
        t.instrument o = .error .idsExhausted := by
      refine hrun.imp_left ?_
      rintro ⟨t', ht', -⟩
      exact ⟨_, t', ht'⟩
    have hnone : ∀ fault t', t.instrument o ≠ .ok (.error fault, t') := by
      intro fault t' hfault
      rcases hrun with ⟨report, t'', hok⟩ | hexhausted
      · rw [hok] at hfault
        cases hfault
      · rw [hexhausted] at hfault
        cases hfault
    refine ⟨⟨?_, ?_⟩, ?_, Or.inr ⟨hpreflight, hrun⟩⟩
    · rintro ⟨fault, t', hfault⟩
      exact absurd hfault (hnone fault t')
    · rintro ⟨id, hid, contract, message, hbreaks⟩
      exact absurd hbreaks ((h.files_ready_iff hroot hkind).mpr hready id hid contract message)
    · intro fault t' hfault
      exact absurd hfault (hnone fault t')

theorem instrument_refuses_page : (page none).WellFormed ∧
    ∃ fault, (page none).instrument {} = .ok (.error fault, page none) := by
  have hwf : (page none).WellFormed := by
    decide
  have hbelow : (page none).Below ⟨1⟩ ⟨3⟩ := by
    refine .head (b := ⟨2⟩) ?_ (.single ?_)
    · decide
    · decide
  obtain ⟨hiff, hfault, -⟩ := instrument_refuses_iff hwf {}
  have hrefused : ∃ fault t', (page none).instrument {} = .ok (.error fault, t') := by
    apply hiff.mpr
    refine ⟨⟨1⟩, by decide, ?_, ⟨3⟩, hbelow, _, _, .idAssigned rfl rfl⟩
    intro path hkind
    cases hkind
  obtain ⟨fault, t', hrun⟩ := hrefused
  obtain ⟨-, -, rfl⟩ := hfault fault t' hrun
  exact ⟨hwf, fault, hrun⟩

end TemplateLogging.Tree
