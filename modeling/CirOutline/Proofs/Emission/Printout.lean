import CirOutline.Proofs.Emission.Foretold

/-!
The lines of printouts. What is made of the lines of a printout can be read off its pieces, and the
variables that its statements see have types that can be written. An emission leaves the lines of a
printout, so what its lines are like is shown by induction over the printout.
-/

namespace CirOutline

open List Option Node Passed TypeTable Statement

variable {b : Binding} {how : Option Mode} {index : Nat} {opening : String} {options : Options}
  {s : Statement} {past : List Passed} {parent : List Nat} {c : Context} {n : Node}

/-! ### Readings of lines -/

namespace Piece

mutual
/-- What is made of the lines of a piece, line by line, by their part in the nesting and their text. -/
def reading {α : Type} (f : Role → String → α) : Piece → List α
  | line content => [f .plain content]
  | braces opening inner =>
    f (.opens .brace true) (opening ++ " \x7b") :: (allReading f inner ++ [f (.closes .brace) "\x7d"])
  | option symbol inner =>
    f (.opens .conditional true) ("#ifdef " ++ symbol) ::
      (allReading f inner ++ [f (.closes .conditional) "#endif"])
  | fallback condition symbol =>
    [f (.opens .conditional false) ("#if " ++ condition), f .plain ("  #define " ++ symbol),
      f (.closes .conditional) "#endif"]

def allReading {α : Type} (f : Role → String → α) : List Piece → List α
  | [] => []
  | p :: ps => p.reading f ++ allReading f ps
end

variable {α : Type} (f : Role → String → α)

theorem allReading_append (ps qs : List Piece) : allReading f (ps ++ qs) = allReading f ps ++ allReading f qs := by
  induction ps with
  | nil => rfl
  | cons p ps ih => rw [cons_append, allReading, allReading, ih, append_assoc]

theorem map_allMarked (ps : List Piece) (groups : Nat) :
    (allMarked groups ps).map (fun l => f l.role l.content) = allReading f ps := by
  induction ps using Piece.pieces_induction generalizing groups with
  | nil => rfl
  | line content ps ih | fallback condition symbol ps ih =>
    simp [allMarked, marked, allReading, reading, ih]
  | braces opening inner ps ihinner ih | option symbol inner ps ihinner ih =>
    simp [allMarked, marked, allReading, reading, ihinner, ih]

theorem map_allLines (hf : ∀ role gap content, f role (shift gap content) = f role content) (width : Int)
    {ps : List Piece} (h : AllEvident ps) :
    (allLines width ps).map (fun line => f (Text.role line) line) = allReading f ps := by
  rw [allLines_eq, List.map_map, ← map_allMarked f ps 0]
  apply map_congr_left
  intro l hl
  have hrole := (evident_marked width ps h 0 l hl).1
  rw [Function.comp_apply, hrole, PrintedLine.text, hf]

def contents (ps : List Piece) : List String := allReading (fun _ content => content) ps

theorem of_mem_allLines {width : Int} {ps : List Piece} {line : String} (h : line ∈ allLines width ps) :
    ∃ gap, ∃ content ∈ contents ps, line = shift gap content := by
  rw [allLines_eq] at h
  obtain ⟨l, hl, rfl⟩ := List.mem_map.mp h
  refine ⟨width * l.groups, l.content, ?_, rfl⟩
  rw [contents, ← map_allMarked _ ps 0]
  exact List.mem_map_of_mem hl

theorem contents_of_lines {P : String → Prop} {pieces : List Piece}
    (h : ∀ p ∈ pieces, ∃ line, p = .line line ∧ P line) :
    ∀ content ∈ contents pieces, P content := by
  induction pieces with
  | nil => exact forall_mem_nil _
  | cons p pieces ih =>
    rw [forall_mem_cons] at h
    obtain ⟨line, rfl, hline⟩ := h.1
    exact forall_mem_cons.mpr ⟨hline, ih h.2⟩

theorem contents_intersperse {P : String → Prop} (hblank : P "") {ps : List Piece}
    (h : ∀ content ∈ contents ps, P content) : ∀ content ∈ contents (ps.intersperse (.line "")), P content := by
  induction ps with
  | nil => exact h
  | cons p ps ih =>
    cases ps with
    | nil => exact h
    | cons q ps =>
      rw [contents, allReading, forall_mem_append] at h
      rw [intersperse_cons_cons, contents, allReading, forall_mem_append]
      exact ⟨h.1, forall_mem_cons.mpr ⟨hblank, ih h.2⟩⟩

end Piece

/-! ### The types of variables -/

/-- The type of a variable is a word, and that of a constant is no array. -/
structure Binding.Plain (b : Binding) : Prop where
  type : Text.IsType b.type.name
  dimensions : b.isMutable = false → b.type.dimensions = []

theorem Statement.plain_of_mem_bindings {types : TypeTable} (htypes : ∀ entry ∈ types, Text.IsType entry.2)
    (h : b ∈ s.bindings types) : b.Plain := by
  cases s with
  | declaration typeName names isMutable =>
    unfold bindings at h
    cases htype : types.resolve typeName [] with
    | error fault => simp [htype] at h
    | ok type =>
      simp only [htype] at h
      obtain ⟨name, -, rfl⟩ := List.mem_map.mp h
      obtain ⟨hword, hdimensions⟩ := forall_resolve (P := Text.IsType) htypes (by rw [htype]; rfl)
      exact ⟨hword, fun _ => hdimensions⟩
  | method name parameters returnType =>
    obtain ⟨p, -, hp⟩ := mem_filterMap.mp h
    obtain ⟨type, htype, rfl⟩ := map_eq_some_iff.mp hp
    exact ⟨(forall_resolve (P := Text.IsType) htypes htype).1, fun hmutable => by cases hmutable⟩
  | _ => cases h

section

variable (h : ∀ f ∈ past, f.statement.Named)
include h

theorem Passed.isType_knownTypes : ∀ entry ∈ knownTypes past, Text.IsType entry.2 := by
  induction past with
  | nil => exact isType_builtin
  | cons f past ih =>
    rw [forall_mem_cons] at h
    obtain ⟨path, s⟩ := f
    cases s with
    | structType name => exact forall_register (ih h.2) h.1
    | _ => exact ih h.2

theorem Passed.isType_of_mem_see {q : Seen} (hq : q ∈ see past) : ∀ entry ∈ q.types, Text.IsType entry.2 := by
  induction past with
  | nil => cases hq
  | cons f past ih =>
    rw [forall_mem_cons] at h
    rcases mem_cons.mp hq with rfl | hq
    · exact isType_knownTypes h.2
    · exact ih h.2 hq

theorem plain_of_resolve {name : Option String} (hfound : resolve past parent name = some b) : b.Plain := by
  have hlatest : ∀ {counts : Seen → Bool} {declared : Seen → Option Binding},
      (∀ q ∈ Passed.see past, ∀ b ∈ declared q, b.Plain) →
      Seen.latest (Passed.see past) counts declared = some b → b.Plain := by
    intro counts declared hdeclared hb
    obtain ⟨q, hq, hb⟩ := exists_of_findSome?_eq_some hb
    split_ifs at hb
    exact hdeclared q hq b hb
  have hplain : ∀ q ∈ Passed.see past, ∀ b ∈ q.statement.bindings q.types, b.Plain := fun q hq b hb =>
    plain_of_mem_bindings (isType_of_mem_see h hq) hb
  unfold resolve Seen.find at hfound
  rcases or_eq_some_iff.mp hfound with hlocal | ⟨-, hglobal⟩
  · refine hlatest (fun q hq b hb => ?_) hlocal
    have hmem : b ∈ q.bindings := mem_reverse.mp (mem_of_find?_eq_some hb)
    unfold Seen.bindings at hmem
    split at hmem
    · split_ifs at hmem
      · obtain rfl := mem_singleton.mp hmem
        exact ⟨isType_builtin ("Int", "int") mem_cons_self, fun hmutable => by cases hmutable⟩
      · cases hmem
    · exact hplain q hq b hmem
  · refine hlatest (fun q hq b hb => ?_) hglobal
    exact hplain q hq b (mem_reverse.mp (mem_of_find?_eq_some hb))

end

/-! ### Emissions -/

theorem emitProgram_printout {source file : String} {lines : List String} {tokens : List Token}
    {program : Program} {start e : Emitter} {output : String} (htokens : tokenize source file = .ok tokens)
    (hread : readProgram tokens file lines = .ok program) (hstart : options.emitter lines = .ok start)
    (hrun : emitProgram start options program.nodes = (.ok output, e)) :
    output = e.output options.includes ∧ ∃ header definitions,
      Printer.PrintsProgram options [] 0 program.nodes header definitions ∧
      (Piece.AllEvident header ∧ Piece.AllEvident definitions) ∧
      e.header = Piece.allLines options.indentWidth header ∧
      e.code = Piece.allLines options.indentWidth (definitions.intersperse (.line "")) := by
  have hsane := Emission.sane_of_read hread
  obtain ⟨hmethods, -⟩ := readProgram_statements htokens hread
  have hidle := (emitProgram_foretold htokens hread hstart hrun).idle
  obtain ⟨pool, rfl, -, hpool⟩ := Options.emitter_start hstart
  obtain ⟨header, definitions, hprinter, -, hheader, hcode, houtput⟩ := emitProgram_wrote hmethods hrun
  have hworded : ∀ s ∈ statements program.nodes, s.Worded := fun s hs =>
    worded_of_named (readProgram_named htokens hread s hs)
  refine ⟨houtput, header, definitions, ?_, ?_, hheader, hcode⟩
  · exact (Printer.program_tells program.nodes hsane (readProgram_names htokens hread)
      (forall_mem_nil _) hidle (Printer.Told.start hpool) hprinter).1
  · exact Printer.program_shows options program.nodes hworded (Emitter.worded_start pool lines) hprinter

end CirOutline
