import CirOutline.Proofs.Emission.Parallel
import CirOutline.Proofs.Layout.BlockPairs
import CirOutline.Proofs.Token.Scanning

/-!
Layout does not reach the output. Two sources whose lines agree in levels and in ink compile to the
same C text or fail for the same cause, whatever the units of indentation, the spacing within lines,
the blank lines and the line ends.
-/

namespace CirOutline

instance (t u : Token) : Decidable (t.Alike u) :=
  decidable_of_iff (t.kind = u.kind ∧ t.raw = u.raw) ⟨fun h => ⟨h.1, h.2⟩, fun h => ⟨h.kind, h.raw⟩⟩

instance (run other : List Token) : Decidable (Token.SameInk run other) :=
  inferInstanceAs (Decidable (List.Forall₂ _ _ _))

instance (unit unit' : Option Nat) (l m : SourceLine) : Decidable (SourceLine.Alike unit unit' l m) :=
  decidable_of_iff (l.level unit = m.level unit' ∧ Token.SameInk l m)
    ⟨fun h => ⟨h.1, h.2⟩, fun h => ⟨h.level, h.ink⟩⟩

theorem fits_start {source file : String} {tokens : List Token} {lines : List String}
    (h : tokenize source file = .ok tokens)
    (hwidths : ∀ l ∈ sourceLines tokens, (unitWidth (sourceLines tokens)).getD 1 ∣ l.width) :
    (Cursor.start tokens file lines).Fits (unitWidth (sourceLines tokens)) where
  scanned := (tokenize_tokenized h).scanned
  comments := (tokenize_tokenized h).neighbours.imp fun _ _ hnext => hnext.2.1
  divides := hwidths
  unit := Option.none_or

/-- Two sources of which each is indented by whole units, and whose lines agree pairwise in level and
in the class and text of their tokens other than white space, both compile to the same output or both
fail for the same cause. -/
theorem compile_layout_insensitive (options : Options) {source source' file file' : String}
    {tokens tokens' : List Token} (htokens : tokenize source file = .ok tokens)
    (htokens' : tokenize source' file' = .ok tokens')
    (hwidths : ∀ l ∈ sourceLines tokens, (unitWidth (sourceLines tokens)).getD 1 ∣ l.width)
    (hwidths' : ∀ l ∈ sourceLines tokens', (unitWidth (sourceLines tokens')).getD 1 ∣ l.width)
    (hlines : List.Forall₂
      (SourceLine.Alike (unitWidth (sourceLines tokens)) (unitWidth (sourceLines tokens')))
      (sourceLines tokens) (sourceLines tokens')) :
    (∃ compiled compiled', (compile options source file).2 = .ok compiled ∧
      (compile options source' file').2 = .ok compiled' ∧ compiled.output = compiled'.output) ∨
    ∃ report report', (compile options source file).2 = .error (.reported report) ∧
      (compile options source' file').2 = .error (.reported report') ∧
      report.cause = report'.cause := by
  have haligned : (Cursor.start tokens file (Text.lines source)).Aligned (unitWidth (sourceLines tokens))
      (unitWidth (sourceLines tokens')) (Cursor.start tokens' file' (Text.lines source')) :=
    ⟨fits_start htokens hwidths, fits_start htokens' hwidths', hlines, rfl⟩
  unfold compile compileQuoting
  simp only [htokens, htokens']
  rcases readProgram_pairs haligned with
    ⟨program, program', hread, hread', hnodes⟩ | ⟨failure, failure', hread, hread', hcause⟩
  swap
  · simp only [hread, hread']
    exact .inr ⟨_, _, rfl, rfl, hcause⟩
  simp only [hread, hread']
  rcases options.emitter_same False (Text.lines source) (Text.lines source') with
    ⟨b, hstart, hstart'⟩ | ⟨start, start', hstart, hstart', hsame⟩
  · simp only [hstart, hstart']
    exact .inr ⟨_, _, rfl, rfl, rfl⟩
  simp only [hstart, hstart']
  rcases emitProgram_parallel hsame (Emission.program_parallel options hnodes False.elim) with
    ⟨output, e, e', hemit, hemit', -⟩ | ⟨stop, stop', e, e', hemit, hemit', hmatch, -⟩
  · simp only [hemit, hemit']
    exact .inl ⟨_, _, rfl, rfl, rfl⟩
  · simp only [hemit, hemit']
    exact .inr ⟨_, _, rfl, rfl, hmatch.cause⟩

def spacedLoop : String := "METHOD m:\n  REPEAT n+1 TIMES:\n    PASS // later"

/-- The same loop with tabs, other spacing, blank lines and all three line ends. -/
def tabbedLoop : String :=
  "\r\nMETHOD  m :  \r \r\n\tREPEAT n + 1 TIMES :\n\n\t\tPASS\t// later\r"

theorem compile_layout_insensitive_of_tabs : ∃ tokens tokens',
    tokenize spacedLoop "spaced.cir" = .ok tokens ∧ tokenize tabbedLoop "tabbed.cir" = .ok tokens' ∧
    (∀ l ∈ sourceLines tokens, (unitWidth (sourceLines tokens)).getD 1 ∣ l.width) ∧
    (∀ l ∈ sourceLines tokens', (unitWidth (sourceLines tokens')).getD 1 ∣ l.width) ∧
    List.Forall₂
      (SourceLine.Alike (unitWidth (sourceLines tokens)) (unitWidth (sourceLines tokens')))
      (sourceLines tokens) (sourceLines tokens') ∧
    ∃ compiled compiled', (compile {} spacedLoop "spaced.cir").2 = .ok compiled ∧
      (compile {} tabbedLoop "tabbed.cir").2 = .ok compiled' ∧ compiled.output = compiled'.output := by
  have hcheck : (do
      let tokens ← (tokenize spacedLoop "spaced.cir").toOption
      let tokens' ← (tokenize tabbedLoop "tabbed.cir").toOption
      some (decide (
        (∀ l ∈ sourceLines tokens, (unitWidth (sourceLines tokens)).getD 1 ∣ l.width) ∧
        (∀ l ∈ sourceLines tokens', (unitWidth (sourceLines tokens')).getD 1 ∣ l.width) ∧
        List.Forall₂
          (SourceLine.Alike (unitWidth (sourceLines tokens)) (unitWidth (sourceLines tokens')))
          (sourceLines tokens) (sourceLines tokens')))) = some true := by
    decide +kernel
  obtain ⟨tokens, htokens, hcheck⟩ := Option.bind_eq_some_iff.mp hcheck
  obtain ⟨tokens', htokens', hcheck⟩ := Option.bind_eq_some_iff.mp hcheck
  have htokens := eq_ok_of_toOption htokens
  have htokens' := eq_ok_of_toOption htokens'
  obtain ⟨hwidths, hwidths', hlines⟩ := of_decide_eq_true (Option.some.inj hcheck)
  have hcompiles : (compile {} spacedLoop "spaced.cir").2.toOption.isSome = true := by
    decide +kernel
  refine ⟨tokens, tokens', htokens, htokens', hwidths, hwidths', hlines, ?_⟩
  rcases compile_layout_insensitive {} htokens htokens' hwidths hwidths' hlines with
    hok | ⟨report, report', hfails, -⟩
  · exact hok
  · rw [hfails] at hcompiles
    cases hcompiles

end CirOutline
