import HornClauses.Proofs.ProgramRereading

/-!
# The round trip of programs

A program that was read is written and read again. The second reading gives the same clauses unless
an operation is written against the order of the table, which makes it fail, or a legacy list ends
with an explicit empty list, which is lost.

* `Settings.roundTrip_iff`: when the default settings give the clauses back.
* `Settings.roundTrip_cases`: what the second reading gives under either list style.
-/

namespace HornClauses.Settings

variable {style : ListStyle} {source : List Char} {cs : List Clause}

/-! ## Second readings -/

/-- A second reading fails exactly when an operation is disordered. -/
theorem exists_error_iff (h : Settings.readProgram ⟨style, .standard⟩ source = .ok cs) :
    (∃ e, Settings.readProgram ⟨style, .standard⟩ (renderProgram cs).toList = .error e) ↔
      ∃ t ∈ programTerms cs, t.isDisordered = true := by
  have hread := readProgram_renderProgram h
  rw [exists_eq_error]
  constructor
  · intro herror
    by_contra hnone
    refine herror _ ((hread _).2 ⟨?_, rfl⟩)
    refine forall_mem_programTerms.1 fun t ht => ?_
    rw [← Bool.not_eq_true]
    exact fun hdis => hnone ⟨t, ht, hdis⟩
  · rintro ⟨t, ht, hdis⟩ ds hds
    have hordered := forall_mem_programTerms.2 ((hread ds).1 hds).1 t ht
    rw [hdis] at hordered
    cases hordered

/-- A second reading gives the same clauses when no operation is disordered and no list changes. -/
theorem readProgram_renderProgram_eq_self_iff
    (h : Settings.readProgram ⟨style, .standard⟩ source = .ok cs) :
    Settings.readProgram ⟨style, .standard⟩ (renderProgram cs).toList = .ok cs ↔
      ∀ t ∈ programTerms cs, t.isDisordered = false ∧ (style = .legacy → t.endsEmpty = false) := by
  rw [readProgram_renderProgram h, eq_comm]
  have hordered : (∀ c ∈ cs, ∀ p ∈ c.parts, p.toTerm.IsOrdered) ↔
      ∀ t ∈ programTerms cs, t.isDisordered = false := forall_mem_programTerms.symm
  rw [hordered]
  cases style with
  | legacy =>
    rw [map_reread_legacy_eq_self_iff]
    constructor
    · rintro ⟨hdis, hempty⟩ t ht
      exact ⟨hdis t ht, fun _ => hempty t ht⟩
    · intro hall
      exact ⟨fun t ht => (hall t ht).1, fun t ht => (hall t ht).2 rfl⟩
  | canonical =>
    rw [map_reread_canonical, and_iff_left rfl]
    constructor
    · intro hdis t ht
      exact ⟨hdis t ht, by rintro ⟨⟩⟩
    · intro hall t ht
      exact (hall t ht).1

/-! ## The default settings -/

/-- Under the default settings a program is read back from its surface form exactly when no operation
in it is disordered and no list in it ends with an explicit empty list. -/
theorem roundTrip_iff (h : standard.readProgram source = .ok cs) :
    standard.readProgram (renderProgram cs).toList = .ok cs ↔
      ∀ t ∈ programTerms cs, t.isDisordered = false ∧ t.endsEmpty = false := by
  rw [standard] at h ⊢
  rw [readProgram_renderProgram_eq_self_iff h]
  simp

/-- The clause `p(a + b * c).` -/
def productInSum : List Clause :=
  [⟨⟨"p", [.compound "+" [.atom "a", .compound "*" [.atom "b", .atom "c"]]]⟩, []⟩]

theorem roundTrip_productInSum :
    standard.readProgram "p(a + b * c).".toList = .ok productInSum ∧
      standard.readProgram (renderProgram productInSum).toList = .ok productInSum := by
  have hread : standard.readProgram "p(a + b * c).".toList = .ok productInSum := by
    decide +kernel
  exact ⟨hread, (roundTrip_iff hread).2 (by decide +kernel)⟩

/-- The clause `p(a + (b > c)).` -/
def comparisonInSum : List Clause :=
  [⟨⟨"p", [.compound "+" [.atom "a", .compound ">" [.atom "b", .atom "c"]]]⟩, []⟩]

/-- Without its parentheses a comparison on the right of a sum is not read. -/
theorem not_roundTrip_comparisonInSum :
    ¬ ∀ source cs, standard.readProgram source = .ok cs →
      standard.readProgram (renderProgram cs).toList = .ok cs := by
  intro hall
  have hread : standard.readProgram "p(a + (b > c)).".toList = .ok comparisonInSum := by
    decide +kernel
  have hagain :
      standard.readProgram (renderProgram comparisonInSum).toList ≠ .ok comparisonInSum := by
    decide +kernel
  exact hagain (hall _ _ hread)

/-! ## Both list styles -/

/-- What the second reading of a program gives. It gives the same clauses exactly when no operation
is disordered and, under legacy lists, no list ends with an explicit empty list. It fails when an
operation is disordered, and gives other clauses when only the end of a legacy list is lost. -/
theorem roundTrip_cases (h : Settings.readProgram ⟨style, .standard⟩ source = .ok cs) :
    (Settings.readProgram ⟨style, .standard⟩ (renderProgram cs).toList = .ok cs ↔
        ∀ t ∈ programTerms cs,
          t.isDisordered = false ∧ ¬(style = .legacy ∧ t.endsEmpty = true)) ∧
      ((∃ t ∈ programTerms cs, t.isDisordered = true) →
        ∃ e, Settings.readProgram ⟨style, .standard⟩ (renderProgram cs).toList = .error e) ∧
      ((∀ t ∈ programTerms cs, t.isDisordered = false) →
        (∃ t ∈ programTerms cs, style = .legacy ∧ t.endsEmpty = true) →
          ∃ ds, Settings.readProgram ⟨style, .standard⟩ (renderProgram cs).toList = .ok ds ∧
            ds ≠ cs) := by
  refine ⟨?_, (exists_error_iff h).2, ?_⟩
  · rw [readProgram_renderProgram_eq_self_iff h]
    simp only [not_and, Bool.not_eq_true]
  · rintro hordered ⟨t, ht, rfl, hempty⟩
    have hread := (readProgram_renderProgram h (cs.map (Clause.reread .legacy))).2
      ⟨forall_mem_programTerms.1 hordered, rfl⟩
    refine ⟨_, hread, fun heq => ?_⟩
    have hself := map_reread_legacy_eq_self_iff.1 heq t ht
    rw [hempty] at hself
    cases hself

/-- The clause `p([a | []]).` under legacy lists -/
def explicitEnd : List Clause := [⟨⟨"p", [.cell [.atom "a", .nil]]⟩, []⟩]

theorem roundTrip_explicitEnd :
    Settings.readProgram ⟨.legacy, .standard⟩ "p([a | []]).".toList = .ok explicitEnd ∧
      ∃ ds, Settings.readProgram ⟨.legacy, .standard⟩ (renderProgram explicitEnd).toList = .ok ds ∧
        ds ≠ explicitEnd := by
  have hread : Settings.readProgram ⟨.legacy, .standard⟩ "p([a | []]).".toList =
      .ok explicitEnd := by
    decide +kernel
  have hordered : ∀ t ∈ programTerms explicitEnd, t.isDisordered = false := by decide +kernel
  have hempty : ∃ t ∈ programTerms explicitEnd,
      ListStyle.legacy = .legacy ∧ t.endsEmpty = true := by
    decide +kernel
  exact ⟨hread, (roundTrip_cases hread).2.2 hordered hempty⟩

end HornClauses.Settings
