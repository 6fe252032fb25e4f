import CirOutline.Proofs.Emission.Mentions
import CirOutline.Proofs.Emission.ModeExclusion
import CirOutline.Proofs.Emission.Prototypes

/-!
Comments that are copied into the output. C joins a line that ends in a backslash with the next one and
takes comments out. What is left of an output, the directives line by line and the tokens of all other
lines, does not depend on whether comments are copied, unless a copied comment ends in a backslash: it
takes the next line with it.
-/

namespace CirOutline

open List String ModeRegistry CLine Piece Option Node Printer

namespace CLine

/-- What a line comes to: a directive as a whole, or its tokens one by one. -/
def items (line : String) : List (List String) :=
  if (tokens line).head? = some "#" then [tokens line] else (tokens line).map fun token => [token]

/-- What lines come to, joined at backslashes and without comments. -/
def allItems (lines : List String) : List (List String) := (splice lines).flatMap items

theorem items_shift (gap : Int) (line : String) : items (shift gap line) = items line := by
  rw [items, items, tokens_shift]

theorem items_of_empty {line : String} (h : tokens line = []) : items line = [] := by
  rw [items, h]
  rfl

end CLine

theorem Statement.splices_of_copied {options : Options} (s : Statement)
    (h : ∀ line ∈ s.copied?, CLine.splices line = false) : s.splices options = false := by
  cases s with
  | comment text =>
    rw [splices]
    cases hcopied : "///".toList.isPrefixOf text.toList with
    | false => simp
    | true => rw [h _ (by rw [copied?, if_pos hcopied]; rfl), Bool.and_false]
  | _ => rfl

/-! ### Printing with comments and without -/

namespace Piece

def items (ps : List Piece) : List (List String) := (contents ps).flatMap CLine.items

theorem items_append (ps qs : List Piece) : items (ps ++ qs) = items ps ++ items qs := by
  rw [items, contents, allReading_append, flatMap_append]
  rfl

theorem items_braces (opening : String) (inner : List Piece) : items [.braces opening inner] =
    CLine.items (opening ++ " \x7b") ++ (items inner ++ CLine.items "\x7d") := by
  simp [items, contents, allReading, reading]

theorem items_option (symbol : String) (inner : List Piece) : items [.option symbol inner] =
    CLine.items ("#ifdef " ++ symbol) ++ (items inner ++ CLine.items "#endif") := by
  simp [items, contents, allReading, reading]

theorem items_intersperse (ps : List Piece) : items (ps.intersperse (.line "")) = items ps := by
  have hblank : items [.line ""] = [] := by
    simp [items, contents, allReading, reading, CLine.items, CLine.tokens, CToken.lex]
  exact intersperse_of_append items_append hblank ps

theorem flatMap_allLines (width : Int) (ps : List Piece) : (allLines width ps).flatMap CLine.items = items ps := by
  rw [allLines_eq, items, contents, ← map_allMarked _ ps 0, flatMap_map, flatMap_map]
  simp only [PrintedLine.text, items_shift]

end Piece

namespace Printer

theorem comment_items {text : String} (h : ∀ c ∈ text.toList, c ≠ '\n') (options : Options) (c : Context) :
    ∃ ps, comment options text c = some (ps, c) ∧ items ps = [] := by
  unfold comment
  split_ifs
  · obtain ⟨rest, hline, hrest⟩ := comment_line h
    refine ⟨_, rfl, ?_⟩
    rw [hline]
    simp [Piece.items, Piece.contents, Piece.allReading, Piece.reading, items_of_empty (tokens_remark hrest)]
  · exact ⟨[], rfl, rfl⟩

theorem items_composes : Composes fun ps qs => items ps = items qs where
  refl := fun _ _ => rfl
  append := fun h h' => by rw [items_append, items_append, h, h']
  braces := fun _ h => by rw [items_braces, items_braces, h]
  option := fun h => by rw [items_option, items_option, h]

theorem program_items (options options' : Options) {c after after' : Context} (ns : List Node)
    {header definitions header' definitions' : List Piece} (hnamed : ∀ s ∈ statements ns, s.Named)
    (hc : c.types.Worded) (h : program options ns c = some (header, definitions, after))
    (h' : program options' ns c = some (header', definitions', after')) :
    items header = items header' ∧ items definitions = items definitions' := by
  refine program_alongside items_composes (fun {s} body hs hleaf => ?_) ns hnamed hc h h'
  cases s with
  | comment text =>
    intro c hc
    obtain ⟨ps, hps, hempty⟩ := comment_items hs options c
    obtain ⟨qs, hqs, hempty'⟩ := comment_items hs options' c
    change Printed _ (comment options text c) (comment options' text c)
    rw [hps, hqs]
    exact .some (hempty.trans hempty'.symm) hc
  | ifThen | elseIf | otherwise | whileLoop | forLoop | repeatLoop | choose => obtain ⟨_, ⟨⟩⟩ := hleaf rfl
  | _ => exact (leaf_shows options (Statement.worded_of_named hs) hleaf body).alongside items_composes

end Printer

/-! ### Outputs -/

namespace Emitter

theorem allItems_outputLines {options : Options} {source file : String} {lines : List String}
    {tokens : List Token} {program : Program} {start e : Emitter} {output : String}
    (htokens : tokenize source file = .ok tokens)
    (hread : readProgram tokens file lines = .ok program) (hstart : options.emitter lines = .ok start)
    (hrun : emitProgram start options program.nodes = (.ok output, e))
    (hcopied : ∀ s ∈ statements program.nodes, ∀ line ∈ s.copied?, splices line = false) :
    CLine.allItems (e.outputLines options.includes) = (e.outputLines options.includes).flatMap CLine.items := by
  obtain ⟨-, header, definitions, hprints, -, hheader, hcode⟩ := emitProgram_printout htokens hread hstart hrun
  obtain ⟨hfirst, hsecond⟩ := hprints.whole fun s hs => s.splices_of_copied (hcopied s hs)
  have hblank : splices "" = false := by decide
  rw [allItems, splice_eq_self]
  rw [outputLines, hheader, hcode]
  simp only [forall_mem_append, forall_mem_singleton]
  exact ⟨⟨⟨⟨forall_mem_map.mpr fun name _ => splices_append rfl (by decide) _, hblank⟩, splices_allLines _ hfirst⟩,
    hblank⟩, splices_allLines _ (contents_intersperse hblank hsecond)⟩

end Emitter

/-- Copied comments never change a program unless one of them ends in a backslash: with lines joined at
backslashes and comments taken out, the output comes to the same tokens, and to the same directives line by
line, whether comments are copied or not. -/
theorem copied_comments_change_nothing {options : Options} {source file : String} {lines : List String}
    {tokens : List Token} {program : Program} {start e e' : Emitter} {output output' : String}
    (htokens : tokenize source file = .ok tokens)
    (hread : readProgram tokens file lines = .ok program) (hstart : options.emitter lines = .ok start)
    (hrun : emitProgram start { options with docComments := true } program.nodes = (.ok output, e))
    (hrun' : emitProgram start { options with docComments := false } program.nodes = (.ok output', e'))
    (hcopied : ∀ s ∈ Node.statements program.nodes, ∀ line ∈ s.copied?, CLine.splices line = false) :
    output = "\n".intercalate (e.outputLines options.includes) ∧
    output' = "\n".intercalate (e'.outputLines options.includes) ∧
    CLine.allItems (e.outputLines options.includes) = CLine.allItems (e'.outputLines options.includes) := by
  obtain ⟨hmethods, -⟩ := readProgram_statements htokens hread
  have hitems := @Emitter.allItems_outputLines { options with docComments := true } _ _ _ _ _ _ _ _ htokens
    hread hstart hrun hcopied
  have hitems' := @Emitter.allItems_outputLines { options with docComments := false } _ _ _ _ _ _ _ _ htokens
    hread hstart hrun' hcopied
  obtain ⟨pool, rfl, -⟩ := Options.emitter_start hstart
  obtain ⟨header, definitions, hprinter, -, hheader, hcode, houtput⟩ := emitProgram_wrote hmethods hrun
  obtain ⟨header', definitions', hprinter', -, hheader', hcode', houtput'⟩ := emitProgram_wrote hmethods hrun'
  obtain ⟨hfirst, hsecond⟩ := Printer.program_items _ _ program.nodes (readProgram_named htokens hread)
    (Emitter.worded_start pool lines) hprinter hprinter'
  refine ⟨houtput, houtput', hitems.trans (Eq.trans ?_ hitems'.symm)⟩
  simp only [Emitter.outputLines, hheader, hheader', hcode, hcode', flatMap_append, Piece.flatMap_allLines,
    Piece.items_intersperse, hfirst, hsecond]

/-- A comment is copied into a method. -/
theorem copied_comments_change_nothing_of_note :
    ∃ tokens program start output e output' e',
      tokenize "METHOD m:\n    /// note\n    RETURN 1" "f" = .ok tokens ∧
      readProgram tokens "f" [] = .ok program ∧ ({} : Options).emitter = .ok start ∧
      emitProgram start { docComments := true } program.nodes = (.ok output, e) ∧
      emitProgram start { docComments := false } program.nodes = (.ok output', e') ∧
      e.code = ["void m(void) \x7b", "    // note", "    return 1;", "\x7d"] ∧
      CLine.allItems (e.outputLines ["stdint.h"]) = CLine.allItems (e'.outputLines ["stdint.h"]) := by
  have hnoted : ∃ tokens program start output e,
      tokenize "METHOD m:\n    /// note\n    RETURN 1" "f" = .ok tokens ∧
      readProgram tokens "f" [] = .ok program ∧ ({ docComments := true } : Options).emitter = .ok start ∧
      emitProgram start { docComments := true } program.nodes = (.ok output, e) ∧
      e.code = ["void m(void) \x7b", "    // note", "    return 1;", "\x7d"] ∧
      ∀ s ∈ Node.statements program.nodes, ∀ line ∈ s.copied?, CLine.splices line = false :=
    exists_emitted _ (by decide +kernel) fun _ _ _ _ h => h
  have hbare : ∃ tokens program start output e,
      tokenize "METHOD m:\n    /// note\n    RETURN 1" "f" = .ok tokens ∧
      readProgram tokens "f" [] = .ok program ∧ ({ docComments := false } : Options).emitter = .ok start ∧
      emitProgram start { docComments := false } program.nodes = (.ok output, e) ∧ True :=
    exists_emitted _ (by decide +kernel) fun _ _ _ _ h => h
  obtain ⟨tokens, program, start, output, e, htokens, hread, hstart, hrun, hcode, hcopied⟩ := hnoted
  obtain ⟨tokens', program', start', output', e', htokens', hread', hstart', hrun', -⟩ := hbare
  obtain rfl := Except.ok.inj (htokens.symm.trans htokens')
  obtain rfl := Except.ok.inj (hread.symm.trans hread')
  obtain rfl := Except.ok.inj (hstart.symm.trans hstart')
  refine ⟨tokens, program, start, output, e, output', e', htokens, hread, hstart, hrun, hrun', hcode, ?_⟩
  exact (@copied_comments_change_nothing {} _ _ _ _ _ _ _ _ _ _ htokens hread hstart hrun hrun' hcopied).2.2

/-- A copied comment that ends in a backslash takes the next line with it. -/
theorem spliced_comment_takes_line :
    (∃ tokens program start output e,
      tokenize "METHOD m:\n    /// a\\\n    RETURN 1" "f" = .ok tokens ∧
      readProgram tokens "f" [] = .ok program ∧ ({ docComments := true } : Options).emitter = .ok start ∧
      emitProgram start { docComments := true } program.nodes = (.ok output, e) ∧
      ["return"] ∉ CLine.allItems (e.outputLines ["stdint.h"])) ∧
    ∃ tokens program start output e,
      tokenize "METHOD m:\n    /// a\\\n    RETURN 1" "f" = .ok tokens ∧
      readProgram tokens "f" [] = .ok program ∧ ({ docComments := false } : Options).emitter = .ok start ∧
      emitProgram start { docComments := false } program.nodes = (.ok output, e) ∧
      ["return"] ∈ CLine.allItems (e.outputLines ["stdint.h"]) := by
  constructor
  · exact exists_emitted _ (by decide +kernel) fun _ _ _ _ h => h
  · exact exists_emitted _ (by decide +kernel) fun _ _ _ _ h => h

end CirOutline
