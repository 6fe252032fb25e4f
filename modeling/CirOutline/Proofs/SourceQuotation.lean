import CirOutline.Proofs.Emission.Parallel
import CirOutline.Proofs.Layout.Reporting

/-!
What the lines of the source are for. The stages composed without them give the same C text, the same
journal, and the same report up to its quotation: the line that is shown and the caret under it. The two
compilations are followed side by side, through the reading and the emission.
-/

namespace CirOutline

variable {options : Options} {source file : String} {lines : List String} {stop stop' : Stop}

/-- The stages one after the other, with no line of the source at hand. -/
def composeStages (options : Options) (source file : String) : Journal × Except Stop String :=
  match tokenize source file with
  | .error failure => ([], .error (.diagnosed failure.diagnostic))
  | .ok tokens =>
    match readProgram tokens file [] with
    | .error failure => (failure.cursor.journal, .error failure.report)
    | .ok program =>
      match options.emitter with
      | .error b => (program.journal, .error (.broken b))
      | .ok start =>
        let (result, e) := emitProgram start options program.nodes
        (program.journal ++ e.journal, result)

namespace Diagnostic

/-- The lines of a report that show the source: the line and the caret under the column. -/
def quotation (d : Diagnostic) : List String :=
  match d.context, d.location with
  | some line, some location =>
    ("    " ++ line) :: (if location.column > 0 then [caret location.column] else [])
  | _, _ => []

theorem reportLines_eq_insert (d : Diagnostic) :
    ∃ headline advice, d.reportLines = headline :: d.quotation ++ advice ∧
      reportLines ⟨d.fault, d.location, none⟩ = headline :: advice :=
  ⟨_, _, rfl, rfl⟩

theorem quoting_nil (fault : Fault) (place : Option Location) : quoting [] fault place = ⟨fault, place, none⟩ := by
  cases place <;> simp [quoting, Text.lineAt?]

end Diagnostic

/-! ### Stages side by side -/

theorem tokenize_quotes {failure : ScanFailure} (h : tokenize source file = .error failure) :
    ∃ fault place, failure.diagnostic = .quoting (Text.lines source) fault place := by
  rw [tokenize] at h
  split at h <;> cases h
  exact ⟨_, _, rfl⟩

theorem Stop.Retold.matches {source source' : Source} (h : stop.Retold source source' stop')
    (hending : source.ending = source'.ending) : stop.Matches True source.lines source'.lines stop' := by
  cases h with
  | there fault place => exact .quoting fault fun _ => rfl
  | atEnd fault =>
    rw [Source.report, Source.report, hending]
    exact .quoting fault fun _ => rfl
  | broken b => exact .broken b

theorem readProgram_matches (tokens : List Token) (file : String) (lines lines' : List String) :
    (∃ program, readProgram tokens file lines = .ok program ∧ readProgram tokens file lines' = .ok program) ∨
      ∃ failure failure', readProgram tokens file lines = .error failure ∧
        readProgram tokens file lines' = .error failure' ∧ failure'.cursor.journal = failure.cursor.journal ∧
        failure.report.Matches True lines lines' failure'.report := by
  have hblock := readBlock_retold (.ofTokens tokens file lines') .statements (by simp) 0 []
    ((Cursor.start tokens file lines).enter 0)
  have hstart : ((Cursor.start tokens file lines).enter 0).reporting (.ofTokens tokens file lines') =
      (Cursor.start tokens file lines').enter 0 := rfl
  rw [hstart] at hblock
  simp only [readProgram, readTokens]
  cases hread : readBlock .statements 0 [] ((Cursor.start tokens file lines).enter 0) with
  | ok read =>
    rw [hread] at hblock
    rw [hblock.of_ok]
    exact .inl ⟨_, rfl, rfl⟩
  | error failure =>
    rw [hread] at hblock
    obtain ⟨stop', hread', hretold⟩ := hblock.of_error
    rw [source_of_readBlock (by simp) hread] at hretold
    rw [hread']
    refine .inr ⟨_, _, rfl, rfl, ?_, hretold.matches rfl⟩
    obtain ⟨stop, c, built⟩ := failure
    cases hretold <;> rfl

theorem compile_matches_stages (options : Options) (source file : String) :
    (∃ compiled journal, compile options source file = (journal ++ [compiled.entry], .ok compiled) ∧
        composeStages options source file = (journal, .ok compiled.output)) ∨
      (∃ failure, tokenize source file = .error failure ∧
        compile options source file = ([], .error (.reported (.diagnosed failure.diagnostic))) ∧
        composeStages options source file = ([], .error (.diagnosed failure.diagnostic))) ∨
      ∃ stop bare journal, compile options source file = (journal, .error (.reported stop)) ∧
        composeStages options source file = (journal, .error bare) ∧
        stop.Matches True (Text.lines source) [] bare := by
  unfold compile compileQuoting composeStages
  cases tokenize source file with
  | error failure => exact .inr (.inl ⟨failure, rfl, rfl, rfl⟩)
  | ok tokens =>
    rcases readProgram_matches tokens file (Text.lines source) [] with
      ⟨program, hread, hbare⟩ | ⟨failure, bare, hread, hbare, hjournal, hmatch⟩
    · simp only [hread, hbare]
      rcases options.emitter_same True (Text.lines source) [] with
        ⟨b, hstart, hstart'⟩ | ⟨start, start', hstart, hstart', hsame⟩
      · simp only [hstart, hstart']
        exact .inr (.inr ⟨_, _, _, rfl, rfl, .broken b⟩)
      · simp only [hstart, hstart']
        rcases emitProgram_parallel hsame
            (Emission.program_parallel options (.refl program.nodes) fun _ => rfl) with
          ⟨output, e, e', hrun, hrun', he⟩ | ⟨stop, stop', e, e', hrun, hrun', hmatch, he⟩
        · simp only [hrun, hrun', he.journal]
          exact .inl ⟨_, _, rfl, rfl⟩
        · simp only [hrun, hrun', he.journal]
          exact .inr (.inr ⟨_, _, _, rfl, rfl, hmatch⟩)
    · simp only [hread, hbare, hjournal]
      exact .inr (.inr ⟨_, _, _, rfl, rfl, hmatch⟩)

theorem compile_context {d : Diagnostic} {line : String}
    (h : (compile options source file).2 = .error (.reported (.diagnosed d))) (hline : d.context = some line) :
    d.location.bind (fun place => Text.lineAt? (Text.lines source) place.line) = some line := by
  rcases compile_matches_stages options source file with
    ⟨_, _, hrun, -⟩ | ⟨failure, htokens, hrun, -⟩ | ⟨stop, _, _, hrun, -, hmatch⟩
  · cases h.symm.trans (congrArg Prod.snd hrun)
  · cases h.symm.trans (congrArg Prod.snd hrun)
    obtain ⟨fault, place, hquotes⟩ := tokenize_quotes htokens
    rw [hquotes] at hline ⊢
    exact hline
  · cases h.symm.trans (congrArg Prod.snd hrun)
    cases hmatch with
    | quoting => exact hline
    | bare => cases hline

/-- The lines of the source change nothing but what a report quotes. A compilation has a result iff
the stages alone have one, and it is the same; otherwise both break off alike, or report the same
fault, with the class, the description and the hint that belong to it, at the same place. The lines
of the report are those of the stages alone with the quoted line and its caret after the headline,
unless the text has no tokens: that report quotes the line by itself. But for the last entry of a
compilation that succeeds, the journals are equal. -/
theorem compile_eq_stages_up_to_quotation (options : Options) (source file : String) :
    (∃ compiled journal, compile options source file = (journal ++ [compiled.entry], .ok compiled) ∧
        composeStages options source file = (journal, .ok compiled.output)) ∨
      (∃ b journal, compile options source file = (journal, .error (.reported (.broken b))) ∧
        composeStages options source file = (journal, .error (.broken b))) ∨
      ∃ d bare journal, compile options source file = (journal, .error (.reported (.diagnosed d))) ∧
        composeStages options source file = (journal, .error (.diagnosed bare)) ∧
        bare.fault = d.fault ∧ bare.location = d.location ∧
        (∀ line, d.context = some line →
          d.location.bind (fun place => Text.lineAt? (Text.lines source) place.line) = some line) ∧
        ∃ headline advice, d.reportLines = headline :: d.quotation ++ advice ∧
          (bare.reportLines = headline :: advice ∨ bare = d ∧ ∃ failure, tokenize source file = .error failure) := by
  rcases compile_matches_stages options source file with
    hok | ⟨failure, htokens, hrun, hbare⟩ | ⟨stop, bare, journal, hrun, hbare, hmatch⟩
  · exact .inl hok
  · obtain ⟨headline, advice, hlines, -⟩ := failure.diagnostic.reportLines_eq_insert
    exact .inr (.inr ⟨_, _, _, hrun, hbare, rfl, rfl, fun _ => compile_context (congrArg Prod.snd hrun),
      headline, advice, hlines, .inr ⟨rfl, failure, htokens⟩⟩)
  · cases hmatch with
    | broken b => exact .inr (.inl ⟨b, journal, hrun, hbare⟩)
    | quoting fault hplace =>
      obtain rfl := hplace trivial
      rw [Diagnostic.quoting_nil] at hbare
      obtain ⟨headline, advice, hlines, hplain⟩ :=
        (Diagnostic.quoting (Text.lines source) fault _).reportLines_eq_insert
      exact .inr (.inr ⟨_, _, _, hrun, hbare, rfl, rfl, fun _ => compile_context (congrArg Prod.snd hrun),
        headline, advice, hlines, .inl hplain⟩)
    | bare fault hplace =>
      obtain rfl := hplace trivial
      obtain ⟨headline, advice, hlines, hplain⟩ := (Diagnostic.mk fault _ none).reportLines_eq_insert
      exact .inr (.inr ⟨_, _, _, hrun, hbare, rfl, rfl, fun _ => compile_context (congrArg Prod.snd hrun),
        headline, advice, hlines, .inl hplain⟩)

end CirOutline
