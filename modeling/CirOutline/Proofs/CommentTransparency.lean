import CirOutline.Proofs.Layout.Completeness
import CirOutline.Proofs.Layout.Statements
import CirOutline.Proofs.Layout.Uncommented
import CirOutline.Proofs.LayoutInsensitivity

/-!
Comments do not reach the output. A source without its comments has the lines that stay, at their
levels; these outline the forest without its comment nodes, are read as that forest, and unless
documentation is asked for a comment node writes to the journal only.
-/

namespace CirOutline

open List

variable {ls : List SourceLine} {others tokens : List Token} {options : Options} {ns ms : List Node}
  {source file : String} {lines lines' : List String}

/-! ### Emission -/

namespace Emission

theorem node_comment (hquiet : options.docComments = false) {n : Node} (hn : n.isComment = true) :
    ∃ text, node options n = note .debug text := by
  obtain ⟨s, place, body⟩ := n
  cases s with
  | comment text =>
    refine ⟨"Generating " ++ (Node.mk (.comment text) place body).tag, ?_⟩
    have hsilent : comment options text = pure () := by simp [comment, hquiet]
    change (do note .debug _; comment options text) = _
    rw [hsilent]
    rfl
  | _ => cases hn

theorem Parallel.note_left {α : Type} {next next' : Emission α} (h : Parallel False lines lines' next next')
    (severity : Severity) (text : String) : Parallel False lines lines' (do note severity text; next) next' := by
  rintro e - ⟨he, journal, -, rfl⟩
  exact h _ _ ⟨he, journal, False.elim, rfl⟩

theorem nodes_uncommented (hquiet : options.docComments = false) (h : Node.AllUncommented ns ms) :
    Parallel False lines lines' (nodes options ns) (nodes options ms) ∧
      ∀ mode, Parallel False lines lines' (modeOptions options mode ns) (modeOptions options mode ms) := by
  induction h with
  | nil => exact ⟨.pure (), fun _ => .pure ()⟩
  | @comment n ns ms hn _ ih =>
    obtain ⟨text, hnode⟩ := node_comment hquiet hn
    refine ⟨?_, fun mode => ?_⟩
    · rw [nodes, hnode]
      exact ih.1.note_left _ _
    · have hoptions : modeOptions options mode (n :: ns) =
          (do node options n; modeOptions options mode ns) := by
        obtain ⟨s, place, body⟩ := n
        cases s with
        | comment text => rfl
        | _ => cases hn
      rw [hoptions, hnode]
      exact (ih.2 mode).note_left _ _
  | @cons s location location' body body' ns ms hs hmember hbody hns ihbody ihns =>
    refine cons_parallel _ _ (.refl s) False.elim ?_ ihbody ihns
    rintro name rfl
    exact hbody.statements (hmember rfl)

end Emission

/-! ### Reading -/

theorem CommentsLast.ink (h : CommentsLast tokens) :
    ∀ l ∈ sourceLines tokens, (Token.ink l).Pairwise fun t _ => t.kind ≠ .comment := by
  intro l hl
  obtain ⟨hpiece, hbreaks, -⟩ := of_mem_sourceLines hl
  have hchain : l.IsChain fun t u => t.kind = .comment → u.kind = .lineBreak := h.infix hpiece
  have hlast : l.Pairwise fun t _ => t.kind ≠ .comment := by
    clear hl hpiece
    induction l with
    | nil => exact .nil
    | cons t l ih =>
      rw [forall_mem_cons] at hbreaks
      refine .cons ?_ (ih hbreaks.2 hchain.tail)
      cases l with
      | nil => simp
      | cons u l =>
        have hnext := (isChain_cons_cons.mp hchain).1
        intro v _ hcomment
        exact hbreaks.2 u mem_cons_self (hnext hcomment)
  exact hlast.filter _

theorem Uncommented.kind_ne_comment {ms : List SourceLine} (h : Uncommented ls ms) :
    ∀ m ∈ ms, ∀ t ∈ Token.ink m, t.kind ≠ .comment := by
  induction h with
  | nil => simp
  | remark _ _ _ ih => exact ih
  | @line l m ls ms hcode _ _ _ ih =>
    rw [forall_mem_cons]
    refine ⟨Token.Alike.forall_mem hcode ?_ ?_, ih⟩
    · exact fun _ _ hsame hcomment => hsame.kind ▸ hcomment
    · intro t ht
      rw [SourceLine.code] at ht
      simpa using of_mem_filter ht

theorem Uncommented.bare (h : Uncommented ls (sourceLines others)) (hothers : tokenize source file = .ok others) :
    ∀ m ∈ sourceLines others, m.Bare := by
  intro m hm t ht
  obtain ⟨hpiece, hbreaks, -⟩ := of_mem_sourceLines hm
  have htm : t ∈ m := mem_of_mem_filter ht
  have hspaces : t.kind ≠ .spaces := by simpa using of_mem_filter ht
  exact ⟨hbreaks t htm, h.kind_ne_comment m hm t ht,
    .of_lexeme hspaces (hbreaks t htm) (tokenize_lexeme hothers t (hpiece.subset htm))⟩

theorem Node.AllUncommented.isComment_of_mem (h : AllUncommented ns ms) :
    ∀ s ∈ Node.statements ms, s.isComment = false := by
  induction h with
  | nil => simp [Node.statements, Node.listing]
  | comment _ _ ih => exact ih
  | cons hs _ _ _ ihbody ihns =>
    rw [Node.forall_statements_cons]
    exact ⟨hs, ihbody, ihns⟩

theorem Node.AllAlike.map_isComment (h : AllAlike ns ms) :
    (Node.statements ns).map Statement.isComment = (Node.statements ms).map Statement.isComment := by
  induction h with
  | nil => rfl
  | cons hs _ _ ihbody ihns =>
    rw [Node.statements_cons, Node.statements_cons, map_cons, map_cons, map_append, map_append, ihbody, ihns]
    cases hs <;> rfl

theorem readProgram_uncommented {other : String} {quoted : List String} {program : Program}
    (htokens : tokenize source file = .ok tokens) (hothers : tokenize other file = .ok others)
    (hlines : Uncommented (sourceLines tokens) (sourceLines others))
    (hread : readProgram tokens file quoted = .ok program) (quoted' : List String) :
    ∃ nodes program', readProgram others file quoted' = .ok program' ∧
      Node.AllUncommented program.nodes nodes ∧ Node.AllAlike nodes program'.nodes ∧
      ∀ s ∈ Node.statements program'.nodes, s.isComment = false := by
  have hscanned := tokenize_tokenized htokens
  obtain ⟨hunit, ⟨after, houtlined⟩, -⟩ := readProgram_outlined hscanned.scanned hread
  rw [hunit] at houtlined
  have hlast : CommentsLast tokens := hscanned.neighbours.imp fun _ _ hnext => hnext.2.1
  have hlevels := hlines.levels fun l hl => (houtlined.indented l hl).1
  obtain ⟨nodes, hbare, hnodes⟩ := houtlined.uncommented .nil hlines hlast.ink hlevels
  obtain ⟨program', hread', hsame⟩ := readProgram_of_outlined hbare
    (fits_start hothers fun m hm => (hlevels m hm).1) (hlines.bare hothers)
  refine ⟨nodes, program', hread', hnodes, hsame, ?_⟩
  have hplain := hnodes.isComment_of_mem
  rw [← forall_mem_map (P := fun b => b = false), hsame.map_isComment, forall_mem_map] at hplain
  exact hplain

/-! ### Compilation -/

theorem compile_stages {compiled : Compiled} (h : (compile options source file).2 = .ok compiled) :
    ∃ tokens program start e, tokenize source file = .ok tokens ∧
      readProgram tokens file (Text.lines source) = .ok program ∧ options.emitter (Text.lines source) = .ok start ∧
      emitProgram start options program.nodes = (.ok compiled.output, e) := by
  unfold compile compileQuoting at h
  split at h
  · cases h
  · next tokens htokens =>
    split at h
    · cases h
    · next program hprogram =>
      split at h
      · cases h
      · next start hstart =>
        split at h
        · cases h
        · next output e hemit =>
          cases h
          exact ⟨tokens, program, start, e, htokens, hprogram, hstart, hemit⟩

theorem emitProgram_ok_of_parallel {start start' e : Emitter} {forest forest' : List Node} {output : String}
    (hstart : start.Same False lines lines' start')
    (h : Emission.Parallel False lines lines' (Emission.program options forest) (Emission.program options forest'))
    (hemit : emitProgram start options forest = (.ok output, e)) :
    ∃ e', emitProgram start' options forest' = (.ok output, e') := by
  rcases emitProgram_parallel hstart h with ⟨text, d, d', hok, hok', -⟩ | ⟨stop, stop', d, d', hstop, -⟩
  · rw [hemit] at hok
    cases hok
    exact ⟨d', hok'⟩
  · rw [hemit] at hstop
    cases hstop

/-- A source that compiles without documentation, and whose comment lines are indented like the line of
code after them, compiles without its comments, to the same output; no comment is left. -/
theorem compile_withoutComments {options : Options} (hquiet : options.docComments = false)
    {source file : String} (haligned : Text.remarksAligned (textLines source.toList) = true)
    {compiled : Compiled} (h : (compile options source file).2 = .ok compiled) :
    ∃ bare, (compile options (Text.withoutComments source) file).2 = .ok bare ∧
      bare.output = compiled.output ∧ ∀ s ∈ Node.statements bare.nodes, s.isComment = false := by
  obtain ⟨tokens, program, start, e, htokens, hread, hstart, hemit⟩ := compile_stages h
  obtain ⟨others, hothers, hlines⟩ := tokenize_withoutComments htokens haligned
  obtain ⟨nodes, program', hread', hnodes, hsame, hplain⟩ := readProgram_uncommented htokens hothers
    hlines hread (Text.lines (Text.withoutComments source))
  obtain ⟨start', hstart', hsames⟩ : ∃ start', options.emitter (Text.lines (Text.withoutComments source)) = .ok start' ∧
      start.Same False (Text.lines source) (Text.lines (Text.withoutComments source)) start' := by
    rcases options.emitter_same False (Text.lines source) (Text.lines (Text.withoutComments source)) with
      ⟨b, hfails, -⟩ | ⟨_, start', hok, hstart', hsame⟩
    · cases hstart.symm.trans hfails
    · cases hstart.symm.trans hok
      exact ⟨start', hstart', hsame⟩
  obtain ⟨e₁, hemit₁⟩ := emitProgram_ok_of_parallel hsames
    (Emission.program_of_nodes (Emission.nodes_uncommented hquiet hnodes).1) hemit
  obtain ⟨e₂, hemit₂⟩ := emitProgram_ok_of_parallel (.refl start')
    (Emission.program_parallel options hsame False.elim) hemit₁
  unfold compile compileQuoting
  simp only [hothers, hread', hstart', hemit₂]
  exact ⟨_, rfl, rfl, hplain⟩

/-- Comments at the top, first in a block, between a condition and its branch, among the options of a
mode, in a named type, after code and at the end. -/
def remarkedSource : String :=
  "// levels\nSETMODE LEVEL(LOW, HIGH) // two\nSTRUCTURE Grid:\n  // cells\n  PASS // later\n\n" ++
  "METHOD main: // start\n  // first\n  IF LEVEL:\n    // yes\n    slow()\n  // or\n\n  ELSE:\n    PASS\n" ++
  "  CHOOSE LEVEL:\n    // low\n    LOW:\n      slow() // !\r\n    // high\n    HIGH:\n      fast()\n//"

theorem compile_withoutComments_of_remarks :
    Text.remarksAligned (textLines remarkedSource.toList) = true ∧
    ∃ compiled bare, (compile {} remarkedSource "remarks.cir").2 = .ok compiled ∧
      (compile {} (Text.withoutComments remarkedSource) "remarks.cir").2 = .ok bare ∧
      bare.output = compiled.output ∧ ∀ s ∈ Node.statements bare.nodes, s.isComment = false := by
  have haligned : Text.remarksAligned (textLines remarkedSource.toList) = true := by decide +kernel
  have hcompiles : (compile {} remarkedSource "remarks.cir").2.toOption.isSome = true := by
    decide +kernel
  obtain ⟨compiled, hcompiled⟩ := Option.isSome_iff_exists.mp hcompiles
  have hcompiled := eq_ok_of_toOption hcompiled
  obtain ⟨bare, hbare⟩ := compile_withoutComments rfl haligned hcompiled
  exact ⟨haligned, compiled, bare, hcompiled, hbare⟩

end CirOutline
