import TemplateLogging.Proofs.Outcome
import TemplateLogging.Proofs.Settling

namespace TemplateLogging

open Instrument Rose

variable {o : InstrumentOptions} {bs : List Branch}

theorem fileSettled_forest (hready : ∀ b ∈ bs, b.FileReady) (hplain : AllPlainIn bs) (s : Tally) :
    ∀ b ∈ (rewriteAll o false bs s).1.forest, b.FileSettled := by
  induction bs generalizing s with
  | nil =>
      rw [rewriteAll_nil]
      simp [Work.still]
  | cons b bs ih =>
      have hbs := ih (fun c hc => hready c (List.mem_cons_of_mem _ hc)) hplain.2
      have hb : ∀ c ∈ (rewrite o false none b s).1.forest, c.FileSettled := by
        rcases hready b List.mem_cons_self with hdep | hb
        · rw [rewrite_of_isDependencyFile hdep]
          intro c hc
          rw [List.mem_singleton.mp hc]
          exact Or.inl hdep
        · have hsettles : Settles false (rewrite o false none b) :=
            (hereditary_settles o).of_ready hb hb hplain.1
          intro c hc
          exact Or.inr ((hsettles s).forest.of_mem hc)
      rw [rewriteAll_cons]
      intro c hc
      rcases List.mem_append.mp hc with hc | hc
      · exact hb c hc
      · exact hbs _ c hc

theorem rests_files (h : ∀ b ∈ bs, b.FileSettled) : Rests (rewriteAll o false bs) bs := by
  induction bs with
  | nil =>
      rw [rewriteAll_nil]
      exact .still []
  | cons b bs ih =>
      have hbs := ih fun c hc => h c (List.mem_cons_of_mem _ hc)
      have hb : Rests (rewrite o false none b) [b] := by
        rcases h b List.mem_cons_self with hdep | hb
        · rw [rewrite_of_isDependencyFile hdep]
          exact .still [b]
        · exact (hereditary_rests o).of_ready hb.ready hb
      rw [rewriteAll_cons]
      exact hb.andThen hbs

namespace Tree

variable {t t' : Tree} {o₁ : InstrumentOptions} {report : InstrumentReport}

/-- A second instrumentation, whatever its options, finds nothing to do. -/
theorem instrument_instrumented (hwf : t.WellFormed) (hregular : t.Regular)
    (hrun : t.instrument o₁ = .ok (.ok report, t')) (o₂ : InstrumentOptions) :
    ∃ report', t'.instrument o₂ = .ok (.ok report', t') ∧ report'.logBlocks = 0 ∧
      report'.functionAttributes = 0 ∧ report'.letBindings = 0 := by
  obtain ⟨a, cs, others, hroot, hkind, -, hready, h, -, h'⟩ := hwf.exists_run hrun
  have hsettled := fileSettled_forest (o := o₁) hready (hregular.allPlainIn h hroot)
    (.start t.ids.next)
  generalize rewriteAll o₁ false cs (.start t.ids.next) = r at h' hsettled
  have hready' : ∀ b ∈ r.1.forest, b.FileReady := fun b hb => (hsettled b hb).fileReady
  obtain ⟨hgrowth, hnext, hreport⟩ := rests_files (o := o₂) hsettled (.start r.2.next)
  have htakes := h'.takes_instrument (o := o₂) hroot hkind hready'
  rw [hgrowth, hnext, hreport] at htakes
  -- No ids are taken, so the second run cannot fail for want of them.
  obtain ⟨⟨_, t''⟩, hrun', rfl, h''⟩ := htakes.ok (Or.inl rfl)
  obtain rfl : t'' = t' := h''.unique h'
  exact ⟨_, hrun', rfl, rfl, rfl⟩

theorem instrument_instrumented_page :
    ∃ report t', (page (some 7)).instrument {} = .ok (.ok report, t') ∧
      ∃ report', t'.instrument { markerKey := "marker" } = .ok (.ok report', t') ∧
        report'.logBlocks = 0 ∧ report'.functionAttributes = 0 ∧ report'.letBindings = 0 := by
  have hwf : (page (some 7)).WellFormed := by
    decide
  obtain ⟨report, t', hrun⟩ := instrument_page
  exact ⟨report, t', hrun, instrument_instrumented hwf regular_page hrun _⟩

end Tree

end TemplateLogging
