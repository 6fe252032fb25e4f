import CirOutline.Proofs.Emission.Selection

/-!
The options of a mode in a whole output. The emission records selections in the order of the source, but
the output has all that stands outside methods before the methods, and hides the lines of an option from
the preprocessor unless the option is defined. So what is recorded at a `DEFINE` need not be what is
defined there, and a second option of a mode may get defined. It does exactly if the program cannot be
played in the order of its output (`Node.playOutput`).
-/

namespace CirOutline

open List Option CLine Mode Piece

namespace Node

/-- Plays the nodes of one part of an output: the lines of methods are in the code, all others in the
header. Selections in the other part are recorded, but not read. -/
def playPart (methods : Bool) : List Node → Selection → Option Selection
  | [], σ => some σ
  | n :: ns, σ => (n.play (n.statement.isMethod == methods) none σ).bind fun σ' => playPart methods ns σ'

/-- Plays a program in the order of its output. The preprocessor reads the header and then the code; what
is recorded is recorded in the order of the source for both. -/
def playOutput (ns : List Node) : Option Selection :=
  (playPart false ns .empty).bind fun σ => playPart true ns { Selection.empty with actual := σ.actual }

end Node

/-! ### The parts of an output -/

namespace Printer

theorem PrintsProgram.plays {options : Options} {registered : List Mode} {past : List Passed} {index : Nat}
    {ns : List Node} {header definitions : List Piece} (hlawful : Lawful registered)
    (hprints : PrintsProgram options past index ns header definitions)
    (hfits : ∀ s ∈ Node.statements ns, s.Fits registered) (hwithin : (Passed.modes past).Within registered) :
    ∃ later, Selection.Reads registered (Node.playPart false ns) (Passed.modes past) later (allDirectives header) ∧
      Selection.Reads registered (Node.playPart true ns) (Passed.modes past) later (allDirectives definitions) := by
  induction hprints with
  | @nil past _ =>
    have hrecords : ∀ methods, Selection.Records (Node.playPart methods []) (Passed.modes past)
        (Passed.modes past) := fun methods actual => rfl
    exact ⟨_, (hrecords false).reads, (hrecords true).reads⟩
  | @method _ _ _ _ _ place _ _ _ _ _ _ _ _ hn hhead hinner _ ih =>
    obtain ⟨-, hbody, hrest⟩ := Node.forall_statements_cons.mp hfits
    have hword := (signature_shows (fun entry h => (hn.told.types entry h).word.startsWord) hhead).1
    have hplays := plays_inside place none rfl (fun _ => rfl) (hinner.plays hlawful hbody) hwithin
    obtain ⟨later, hheader, hcode⟩ := ih hrest hplays.within
    refine ⟨later, ?_, ?_⟩
    · rw [allDirectives_cons, allDirectives_line, directive?_of_startsWord (Text.startsWord_append hword ";")]
      exact hplays.unread.reads.andThen hheader
    · rw [allDirectives_cons, allDirectives_braces
        (directive?_of_startsWord (Text.startsWord_append hword " \x7b"))]
      exact hplays.read.andThen hcode
  | @other _ _ n ns _ _ _ hmethod hnode _ ih =>
    rw [← singleton_append, Node.statements_append, forall_mem_append] at hfits
    have hplays := hnode.plays hlawful hfits.1 hwithin
    have hplay : (fun live => Node.playAll live (Option.map Mode.name none) [n]) = fun live => n.play live none := by
      funext live σ
      exact bind_fun_some _
    rw [hplay, Node.walkAll, Node.walkAll, append_nil] at hplays
    obtain ⟨later, hheader, hcode⟩ := ih hfits.2 hplays.within
    have hpart : ∀ methods, Node.playPart methods (n :: ns) = fun σ =>
        (n.play (false == methods) none σ).bind (Node.playPart methods ns) := by
      intro methods
      rw [← hmethod]
      rfl
    rw [hpart, hpart, allDirectives_append]
    exact ⟨later, hplays.read.andThen hheader, hplays.unread.reads.andThen hcode⟩

end Printer

/-! ### Whole outputs -/

theorem CLine.directive?_include (name : String) : directive? ("#include <" ++ name ++ ">") = none := by
  have hword : Text.IsWord "include" := Text.isWord_of_all (by decide)
  have hline : ("#include <" ++ name ++ ">").toList =
      '#' :: ("include".toList ++ ' ' :: '<' :: (name.toList ++ ['>'])) := by
    simp
  rw [directive?_of_word hword hline (by rintro d ⟨⟩; decide)]
  rfl

namespace Emitter

def outputLines (includes : List String) (e : Emitter) : List String :=
  includes.map (fun name => "#include <" ++ name ++ ">") ++ [""] ++ e.header ++ [""] ++ e.code

theorem directives_outputLines {e : Emitter} {width : Int} {header definitions : List Piece}
    (hheader : e.header = allLines width header)
    (hcode : e.code = allLines width (definitions.intersperse (.line "")))
    (hwhole : ∀ content ∈ contents header, splices content = false)
    (hwhole' : ∀ content ∈ contents definitions, splices content = false)
    (includes : List String) : CLine.directives (e.outputLines includes) =
      allDirectives header ++ allDirectives definitions := by
  have hincludes : ∀ line ∈ includes.map fun name => "#include <" ++ name ++ ">",
      splices line = false ∧ CLine.directive? line = none := by
    intro line hline
    obtain ⟨name, -, rfl⟩ := List.mem_map.mp hline
    exact ⟨splices_append rfl (by decide) _, directive?_include name⟩
  have hblank : ∀ line ∈ [""], splices line = false := forall_mem_singleton.mpr (by decide)
  have hlines : ∀ line ∈ e.outputLines includes, splices line = false := by
    rw [outputLines, hheader, hcode]
    simp only [forall_mem_append]
    exact ⟨⟨⟨⟨fun line hline => (hincludes line hline).1, hblank⟩, splices_allLines _ hwhole⟩, hblank⟩,
      splices_allLines _ (contents_intersperse (by decide) hwhole')⟩
  have hnone : (includes.map fun name => "#include <" ++ name ++ ">").filterMap CLine.directive? = [] :=
    filterMap_eq_nil_iff.mpr fun line hline => (hincludes line hline).2
  rw [CLine.directives, splice_eq_self hlines, outputLines, hheader, hcode]
  simp only [filterMap_append, hnone, filterMap_directive?_allLines,
    allDirectives_intersperse, filterMap_cons, directive?_blank, filterMap_nil,
    nil_append, append_nil]

end Emitter

/-- Reading the whole output of a program never leads to a state in which two options of a mode are defined
exactly if the program can be played in the order of its output, where every `DEFINE` finds no option of
its mode defined but the one that it selects or the one that is recorded. -/
theorem options_exclusive_iff_output_plays {options : Options} {source file : String} {lines : List String}
    {tokens : List Token} {program : Program} {start e : Emitter} {output : String} {defined : List String}
    (htokens : tokenize source file = .ok tokens)
    (hread : readProgram tokens file lines = .ok program) (hstart : options.emitter lines = .ok start)
    (hrun : emitProgram start options program.nodes = (.ok output, e))
    (hapart : Node.ModesApart program.nodes)
    (hdefined : ∀ m ∈ Node.registered program.nodes, ∀ o ∈ m.options, m.symbol o ∉ defined)
    (hconstants : ∀ s ∈ Node.statements program.nodes, ∀ name ∈ s.assigned?,
      ∀ m ∈ Node.registered program.nodes, name ∉ m.symbols)
    (hcomments : ∀ s ∈ Node.statements program.nodes, s.splices options = false) :
    output = "\n".intercalate (e.outputLines options.includes) ∧
    ((∀ p ∈ Preprocessor.states ⟨defined, []⟩ (CLine.directives (e.outputLines options.includes)),
        Mode.Exclusive (Node.registered program.nodes) p.defined) ↔
      (Node.playOutput program.nodes).isSome = true) := by
  obtain ⟨houtput, header, definitions, hprints, -, hheader, hcode⟩ := emitProgram_printout htokens hread hstart hrun
  have hfits : ∀ s ∈ Node.statements program.nodes, s.Fits (Node.registered program.nodes) := fun s hs =>
    ⟨fun m hm => mem_filterMap.mpr ⟨s, hs, hm⟩, hconstants s hs⟩
  obtain ⟨hwhole, hwhole'⟩ := hprints.whole hcomments
  obtain ⟨later, hreads, hreads'⟩ :=
    hprints.plays hapart.lawful hfits fun m hm => (not_mem_nil hm).elim
  refine ⟨houtput, ?_⟩
  rw [Emitter.directives_outputLines hheader hcode hwhole hwhole', Node.playOutput]
  rcases hreads (fun _ => none) defined (Mode.Shows.start hdefined) with
    ⟨hplay, hbreaks⟩ | ⟨actual, d, hplay, hruns, hshows⟩
  · have hplay : Node.playPart false program.nodes .empty = none := hplay
    rw [hplay]
    exact iff_of_false (hbreaks.append _ [] rfl) (by simp)
  · have hplay : Node.playPart false program.nodes .empty = some ⟨later.selected, actual⟩ := hplay
    rw [hplay, bind_some]
    rcases hreads' actual d hshows with ⟨hplay', hbreaks⟩ | ⟨actual', d', hplay', hruns', -⟩
    · have hplay' : Node.playPart true program.nodes { Selection.empty with actual := actual } = none :=
        hplay'
      rw [hplay']
      exact iff_of_false (hbreaks.after hruns [] rfl) (by simp)
    · have hplay' : Node.playPart true program.nodes { Selection.empty with actual := actual } =
          some ⟨later.selected, actual'⟩ := hplay'
      rw [hplay']
      exact iff_of_true ((hruns.append hruns').keeps [] rfl) rfl

/-- A method in which each option of a mode selects the other. -/
theorem options_exclusive_iff_output_plays_of_switch :
    ∃ tokens program start output e,
      tokenize ("SETMODE M(A, B)\nSETMODE N(X, Y)\nDEFAULT M = A\nMETHOD m:\n CHOOSE M:\n  A:\n" ++
        "   DEFINE M = B\n   DEFINE N = Y\n  B:\n   DEFINE M = A") "switch" = .ok tokens ∧
      readProgram tokens "switch" [] = .ok program ∧ ({} : Options).emitter = .ok start ∧
      emitProgram start {} program.nodes = (.ok output, e) ∧
      (Node.registered program.nodes).map Mode.symbols = [["M_A", "M_B"], ["N_X", "N_Y"]] ∧
      ∀ p ∈ Preprocessor.states ⟨["X", "Y"], []⟩ (CLine.directives (e.outputLines ["stdint.h"])),
        Mode.Exclusive (Node.registered program.nodes) p.defined := by
  refine exists_emitted (fun program _ _ =>
    (Node.registered program.nodes).map symbols = [["M_A", "M_B"], ["N_X", "N_Y"]] ∧
      Node.ModesApart program.nodes ∧
      (∀ m ∈ Node.registered program.nodes, ∀ o ∈ m.options, m.symbol o ∉ ["X", "Y"]) ∧
      (∀ s ∈ Node.statements program.nodes, (∀ name ∈ s.assigned?, ∀ m ∈ Node.registered program.nodes,
        name ∉ m.symbols) ∧ s.splices {} = false) ∧
      (Node.playOutput program.nodes).isSome = true) (by decide +kernel) ?_
  rintro tokens program start output e htokens hread hstart hrun
    ⟨hregistered, hapart, hdefined, hstatements, hplays⟩
  obtain ⟨-, hexclusive⟩ := options_exclusive_iff_output_plays htokens hread hstart hrun hapart
    hdefined (fun s hs => (hstatements s hs).1) fun s hs => (hstatements s hs).2
  exact ⟨hregistered, hexclusive.mpr hplays⟩

/-- A selection in a method is recorded before a later one outside, but it is read after it. -/
theorem selection_in_method_defines_second_option :
    ∃ tokens program start output e,
      tokenize "SETMODE M(A, B)\nMETHOD m:\n    DEFINE M = A\nDEFINE M = B" "<input>" = .ok tokens ∧
      readProgram tokens "<input>" [] = .ok program ∧ ({} : Options).emitter = .ok start ∧
      emitProgram start {} program.nodes = (.ok output, e) ∧
      output = "#include <stdint.h>\n\n/** M: M_A | M_B **/\nvoid m(void);\n#undef M_A\n#define M_B\n\n" ++
        "void m(void) \x7b\n    #define M_A\n\x7d" ∧
      ∃ p ∈ Preprocessor.states ⟨[], []⟩ (CLine.directives (e.outputLines ["stdint.h"])),
        "M_A" ∈ p.defined ∧ "M_B" ∈ p.defined := by
  exact exists_emitted _ (by decide +kernel) fun _ _ _ _ h => h

end CirOutline
