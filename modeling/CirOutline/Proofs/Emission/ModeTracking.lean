import CirOutline.Proofs.Emission.Selection

/-!
Commands for modes at the top level. After every command the emission takes for selected what the
preprocessor finds defined when it has read the header so far: of every mode that is registered the
option that is recorded, and no other.
-/

namespace CirOutline

open List Node Piece Mode ModeRegistry

variable {e : Emitter} {n : Node} {ns : List Node} {options : Options} {s : Statement}

def Statement.isModeCommand : Statement → Bool
  | setMode .. | defaultMode .. | defineMode .. => true
  | _ => false

theorem Statement.cases_of_isModeCommand (h : s.isModeCommand = true) :
    (∃ name choices, s = .setMode name choices) ∨ (∃ name choice, s = .defaultMode name choice) ∨
      ∃ name choice, s = .defineMode name choice := by
  cases s with
  | setMode name choices => exact .inl ⟨name, choices, rfl⟩
  | defaultMode name choice => exact .inr (.inl ⟨name, choice, rfl⟩)
  | defineMode name choice => exact .inr (.inr ⟨name, choice, rfl⟩)
  | _ => cases h

theorem Statement.plain_of_isModeCommand (h : s.isModeCommand = true) (options : Options) :
    s.isMethod = false ∧ s.opensBlock = false ∧ s.splices options = false ∧ s.assigned? = none := by
  obtain ⟨_, _, rfl⟩ | ⟨_, _, rfl⟩ | ⟨_, _, rfl⟩ := cases_of_isModeCommand h <;> exact ⟨rfl, rfl, rfl, rfl⟩

theorem Node.statement_mem (h : n ∈ ns) : n.statement ∈ statements ns := by
  obtain ⟨before, after, rfl⟩ := append_of_mem h
  obtain ⟨s, location, body⟩ := n
  rw [statements_append, statements_cons]
  exact mem_append_right _ mem_cons_self

theorem Printer.allIdle_of_commands (h : ∀ s ∈ statements ns, s.isModeCommand = true) :
    AllIdle [] (walkAll [] 0 ns) := by
  intro x hx _ event hevent
  have hs := h _ (statement_mem_of_walkAll ns [] 0 _ (Passed.of_mem_steps hx).1)
  obtain ⟨past, path, s⟩ := x
  obtain ⟨_, _, rfl⟩ | ⟨_, _, rfl⟩ | ⟨_, _, rfl⟩ := Statement.cases_of_isModeCommand hs <;>
    simp [Passed.event?, Statement.event?] at hevent

/-! ### The first nodes of a program -/

theorem Emission.Sane.of_append {parent : List Nat} {how : Option Mode} {ms : List Node}
    (h : Sane parent how (ns ++ ms)) : Sane parent how ns where
  readable := allReadable_iff.mpr (forall_mem_append.mp (allReadable_iff.mp h.readable)).1
  trim := allTrim_iff.mpr (forall_mem_append.mp (allTrim_iff.mp h.trim)).1
  methods := (forall_mem_append.mp h.methods).1

theorem Emission.block_append {how : Option Mode} {ms : List Node} {e' : Emitter}
    (h : block options how (ns ++ ms) e = .ok () e') :
    ∃ e1, block options how ns e = .ok () e1 ∧ block options how ms e1 = .ok () e' := by
  induction ns generalizing e with
  | nil => exact ⟨e, by rw [block_nil]; rfl, h⟩
  | cons n ns ih =>
    rw [cons_append, block_cons] at h
    obtain ⟨_, e1, hvisit, h⟩ := exists_of_bind_ok h
    obtain ⟨e2, hfirst, hrest⟩ := ih h
    exact ⟨e2, by rw [block_cons, bind_of_ok hvisit, hfirst], hrest⟩

theorem emitProgram_append {pool : TemporaryPool} {lines : List String} {done rest : List Node} {output : String}
    (hmethods : MethodsOutside (done ++ rest))
    (h : emitProgram (Emitter.start pool lines) options (done ++ rest) = (.ok output, e)) :
    ∃ text e1, emitProgram (Emitter.start pool lines) options done = (.ok text, e1) ∧ e1.header <+: e.header := by
  obtain ⟨e1, hdone, hrest⟩ := Emission.block_append (emitProgram_block h)
  have hdone : Emission.nodes options done (Emitter.start pool lines) = .ok () e1 := hdone
  obtain ⟨hmethods, hmethods'⟩ := forall_mem_append.mp hmethods
  have hwrote := Emission.program_wrote options (e := Emitter.start pool lines) done hmethods rfl rfl
  obtain ⟨_, _, -, hstream, hgroups, -, -⟩ := hwrote.ok hdone
  obtain ⟨later, _, -, -, -, hheader, -⟩ :=
    (Emission.program_wrote options rest hmethods' hstream hgroups).ok hrest
  refine ⟨e1.output options.includes, e1, ?_, hheader ▸ prefix_append _ _⟩
  have hprogram : Emission.program options done (Emitter.start pool lines) =
      .ok (e1.output options.includes) e1 := by
    rw [Emission.program, bind_of_ok hdone, get_bind, if_neg (by simp [hgroups])]
    rfl
  rw [emitProgram, hprogram]

theorem Printer.program_eq_block (options : Options) {forest : List Node}
    (h : ∀ n ∈ forest, n.statement.isMethod = false) (c : Context) :
    program options forest c = (block options none forest c).map fun r => (r.1, [], r.2) := by
  induction forest generalizing c with
  | nil => rfl
  | cons n rest ih =>
    obtain ⟨s, location, body⟩ := n
    obtain ⟨hs, hrest⟩ := forall_mem_cons.mp h
    have hprogram : program options (.mk s location body :: rest) c =
        (node options (.mk s location body) c).bind fun r =>
          (program options rest r.2).bind fun q => some (r.1 ++ q.1, q.2.1, q.2.2) := by
      cases s with
      | method name parameters returnType => cases hs
      | _ => rfl
    have hblock : block options none (.mk s location body :: rest) c =
        (node options (.mk s location body) c).bind fun r =>
          (block options none rest r.2).bind fun q => some (r.1 ++ q.1, q.2) := by
      rw [block_cons, node]
      rfl
    rw [hprogram, hblock]
    cases node options (.mk s location body) c with
    | none => rfl
    | some r =>
      rw [Option.bind_some, Option.bind_some, ih hrest]
      cases block options none rest r.2 <;> rfl

/-! ### The modes that are recorded -/

namespace ModeRegistry

variable {m : Mode} {modes : ModeRegistry}

theorem put_of_find?_none (h : modes.find? m.name = none) : modes.put m = modes ++ [m] := by
  induction modes with
  | nil => rfl
  | cons other rest ih =>
    obtain ⟨hother, hrest⟩ := forall_mem_cons.mp (find?_eq_none.mp h)
    rw [put, if_neg hother, ih (find?_eq_none.mpr hrest), cons_append]

theorem map_bare_put {found : Mode} (h : modes.find? m.name = some found) (hbare : m.bare = found.bare) :
    (modes.put m).map bare = modes.map bare := by
  induction modes with
  | nil => cases h
  | cons other rest ih =>
    rw [find?, find?_cons] at h
    rw [put]
    cases hother : other.name == m.name with
    | true =>
      rw [hother] at h
      obtain rfl : other = found := Option.some.inj h
      rw [if_pos rfl, map_cons, map_cons, hbare]
    | false =>
      rw [hother] at h
      rw [if_neg (by simp), map_cons, map_cons, ih h]

theorem find?_of_mem (hnames : (modes.map name).Nodup) (hm : m ∈ modes) : modes.find? m.name = some m := by
  cases hfound : modes.find? m.name with
  | none => exact absurd (beq_self_eq_true m.name) (find?_eq_none.mp hfound m hm)
  | some found =>
    obtain ⟨hmem, hname⟩ := mem_of_find? hfound
    rw [inj_on_of_nodup_map hnames hmem hm hname]

theorem find?_of_nodup {rest : List Mode}
    (h : ((modes.map bare ++ m :: rest).map name).Nodup) : modes.find? m.name = none := by
  refine find?_eq_none.mpr fun other hother hname => ?_
  rw [map_append, map_map] at h
  refine disjoint_of_nodup_append h (mem_map.mpr ⟨other, hother, rfl⟩) ?_
  exact mem_cons.mpr (.inl (eq_of_beq hname))

end ModeRegistry

theorem Statement.map_bare_modesAfter {modes : ModeRegistry} (hcommand : s.isModeCommand = true)
    (hnew : ∀ m ∈ s.registers?, modes.find? m.name = none) :
    (s.modesAfter modes).map bare = modes.map bare ++ s.registers?.toList := by
  have hput : ∀ {name : String} {m : Mode} (choice : String), modes.find? name = some m →
      (modes.put { m with current := some choice }).map bare = modes.map bare ++ [] := by
    intro name m choice hfound
    obtain ⟨-, rfl⟩ := mem_of_find? hfound
    rw [append_nil]
    exact map_bare_put hfound rfl
  obtain ⟨name, choices, rfl⟩ | ⟨name, choice, rfl⟩ | ⟨name, choice, rfl⟩ := cases_of_isModeCommand hcommand
  · change (modes.put ⟨name, choices, none⟩).map bare = _
    rw [put_of_find?_none (hnew ⟨name, choices, none⟩ rfl), map_append]
    rfl
  · rw [modesAfter]
    cases hfound : modes.find? name with
    | none => exact (append_nil _).symm
    | some m =>
      rw [Option.elim_some]
      split_ifs
      · exact (append_nil _).symm
      · exact hput choice hfound
  · rw [modesAfter]
    cases hfound : modes.find? name with
    | none => exact (append_nil _).symm
    | some m => exact hput choice hfound

theorem Node.play_command {s : Statement} {location : Option Location} {body : List Node}
    {how : Option String} {selected : String → Option String} (hcommand : s.isModeCommand = true)
    (hnew : ∀ m ∈ s.registers?, selected m.name = none) :
    ∃ later, (mk s location body).play true how ⟨selected, selected⟩ = some ⟨later, later⟩ := by
  obtain ⟨name, choices, rfl⟩ | ⟨name, choice, rfl⟩ | ⟨name, choice, rfl⟩ :=
    Statement.cases_of_isModeCommand hcommand
  · have hnone : none = selected name := (hnew ⟨name, choices, none⟩ rfl).symm
    have hsame : Function.update selected name none = selected := by rw [hnone, Function.update_eq_self]
    refine ⟨selected, ?_⟩
    change some (Selection.mk (Function.update selected name none) selected) = _
    rw [hsame]
  · exact ⟨_, rfl⟩
  · exact ⟨Function.update selected name (some choice), if_pos (.inr (.inr rfl))⟩

namespace Printer

variable {registered : List Mode} {past : List Passed} {parent : List Nat} {index : Nat} {how : Option Mode}
  {c : Context} {pieces : List Piece} {d : List String}

theorem Says.tracks (hlawful : Lawful registered) (hn : Stands past parent index how n c)
    (hwording : Says options c n pieces) (hcommand : n.statement.isModeCommand = true)
    (hfits : n.statement.Fits registered)
    (hnew : ∀ m ∈ n.statement.registers?, (Passed.modes past).find? m.name = none)
    (hwithin : (Passed.modes past).Within registered)
    (hshows : Mode.Shows registered (Passed.modes past).selected d) :
    (n.statement.modesAfter (Passed.modes past)).Within registered ∧
      ∃ d', Runs (Exclusive registered) d (allDirectives pieces) d' ∧
        Mode.Shows registered (n.statement.modesAfter (Passed.modes past)).selected d' := by
  obtain ⟨s, place, body⟩ := n
  have hplays := hwording.plays hlawful hn hfits (hn.told.modes ▸ hwithin) none
  rw [hn.told.modes] at hplays
  have hunselected : ∀ m ∈ s.registers?, (Passed.modes past).selected m.name = none := by
    intro m hm
    rw [selected, hnew m hm]
    rfl
  obtain ⟨selected, hplay⟩ := @Node.play_command s place body none _ hcommand hunselected
  rcases hplays.read (Passed.modes past).selected d hshows with
    ⟨hnone, -⟩ | ⟨actual, d', hsome, hruns, hshows'⟩
  · cases hplay.symm.trans hnone
  · obtain ⟨rfl, rfl⟩ := Selection.mk.inj (Option.some.inj (hplay.symm.trans hsome))
    exact ⟨hplays.within, d', hruns, hshows'⟩

theorem Prints.tracks (hlawful : Lawful registered) (hprints : Prints options past parent index how ns pieces)
    (hcommands : ∀ s ∈ Node.statements ns, s.isModeCommand = true)
    (hfits : ∀ s ∈ Node.statements ns, s.Fits registered)
    (honce : (((Passed.modes past).map bare ++ Node.registered ns).map name).Nodup)
    (hwithin : (Passed.modes past).Within registered)
    (hshows : Mode.Shows registered (Passed.modes past).selected d) :
    let later := Passed.modes ((walkAll parent index ns).reverse ++ past)
    later.map bare = (Passed.modes past).map bare ++ Node.registered ns ∧ later.Within registered ∧
      ∃ d', Runs (Exclusive registered) d (allDirectives pieces) d' ∧ Mode.Shows registered later.selected d' := by
  induction hprints generalizing d with
  | nil => exact ⟨(append_nil _).symm, hwithin, d, Runs.nil hshows.exclusive, hshows⟩
  | @leaf past parent index _ n ns c pieces rest hn hwording _ ih =>
    have hnext := hwording.modes_walk hn
    obtain ⟨s, place, body⟩ := n
    obtain ⟨hcommand, -, hcommands⟩ := forall_statements_cons.mp hcommands
    obtain ⟨hs, -, hfits⟩ := forall_statements_cons.mp hfits
    have hnil : body = [] := hn.sane.trim.1.1 (Statement.plain_of_isModeCommand hcommand options).2.1
    have hregistered : Node.registered (.mk s place body :: ns) =
        s.registers?.toList ++ Node.registered ns := by
      rw [Node.registered, statements_cons, hnil, filterMap_cons]
      cases s.registers? <;> rfl
    rw [hregistered] at honce ⊢
    have hnew : ∀ m ∈ s.registers?, (Passed.modes past).find? m.name = none := by
      intro m hm
      have hm : s.registers? = some m := hm
      rw [hm] at honce
      exact find?_of_nodup honce
    have hrecords := Statement.map_bare_modesAfter hcommand hnew
    obtain ⟨hwithin1, d1, hruns, hshows1⟩ := hwording.tracks hlawful hn hcommand hs hnew hwithin hshows
    rw [← append_assoc, ← hrecords] at honce ⊢
    rw [hnext] at ih
    obtain ⟨hrecords', hwithin', d2, hruns', hshows2⟩ := ih hcommands hfits honce hwithin1 hshows1
    rw [walkAll, reverse_append, append_assoc, allDirectives_append]
    exact ⟨hrecords', hwithin', d2, hruns.append hruns', hshows2⟩
  | @block _ _ _ _ _ n _ _ _ _ _ _ hwraps =>
    obtain ⟨s, place, body⟩ := n
    have hcommand := (forall_statements_cons.mp hcommands).1
    cases hwraps with
    | braces hhead => cases hhead <;> cases hcommand
    | choose | option => cases hcommand

end Printer

/-- Commands for modes at the top level. After each of them the modes that are registered are recorded, and
when the preprocessor has read the header so far, of every mode the option is defined that is recorded as
selected, and no other. -/
theorem recorded_option_is_defined {options : Options} {source file : String} {lines : List String}
    {tokens : List Token} {program : Program} {start e : Emitter} {output : String} {defined : List String}
    (htokens : tokenize source file = .ok tokens)
    (hread : readProgram tokens file lines = .ok program) (hstart : options.emitter lines = .ok start)
    (hrun : emitProgram start options program.nodes = (.ok output, e))
    (hcommands : ∀ s ∈ Node.statements program.nodes, s.isModeCommand = true)
    (hapart : Node.ModesApart program.nodes)
    (hdefined : ∀ m ∈ Node.registered program.nodes, ∀ o ∈ m.options, m.symbol o ∉ defined) :
    ∀ done rest, program.nodes = done ++ rest →
      ∃ text e', emitProgram start options done = (.ok text, e') ∧ e'.header <+: e.header ∧
        e'.context.modes.map Mode.bare = Node.registered done ∧
        ∀ m ∈ e'.context.modes, (∀ o ∈ m.current, o ∈ m.options) ∧
          ∃ final, Preprocessor.run ⟨defined, []⟩ (CLine.directives e'.header) = ⟨final, []⟩ ∧
            ∀ o ∈ m.options, m.symbol o ∈ final ↔ m.current = some o := by
  intro done rest hnodes
  have hsane := Emission.sane_of_read hread
  obtain ⟨hmethods, -⟩ := readProgram_statements htokens hread
  obtain ⟨pool, rfl, -, hpool⟩ := Options.emitter_start hstart
  have hstatements : ∀ s ∈ Node.statements done, s ∈ Node.statements program.nodes := by
    intro s hs
    rw [hnodes, statements_append]
    exact mem_append_left _ hs
  have hcommand : ∀ s ∈ Node.statements done, s.isModeCommand = true := fun s hs =>
    hcommands s (hstatements s hs)
  rw [hnodes] at hmethods hrun hsane
  obtain ⟨text, e', hdone, hheader⟩ := emitProgram_append hmethods hrun
  obtain ⟨header, definitions, hprinter, -, hlines, -, -⟩ :=
    emitProgram_wrote (forall_mem_append.mp hmethods).1 hdone
  -- commands are no methods, so all lines are in the header
  have hplain : ∀ n ∈ done, n.statement.isMethod = false := by
    intro n hn
    have hs := hcommand n.statement (statement_mem hn)
    exact (Statement.plain_of_isModeCommand hs options).1
  rw [Printer.program_eq_block options hplain] at hprinter
  obtain ⟨⟨pieces, c'⟩, hblock, hprinter⟩ := Option.map_eq_some_iff.mp hprinter
  obtain ⟨rfl, -, rfl⟩ := hprinter
  have hfits : ∀ s ∈ Node.statements done, s.Fits (Node.registered program.nodes) := by
    intro s hs
    obtain ⟨-, -, -, hassigned⟩ := Statement.plain_of_isModeCommand (hcommand s hs) options
    exact ⟨fun m hm => mem_filterMap.mpr ⟨s, hstatements s hs, hm⟩, by rw [hassigned]; simp⟩
  have honce' : ((Node.registered done).map Mode.name).Nodup := by
    have honce := hapart.once
    rw [hnodes, registered_append, map_append] at honce
    exact honce.of_append_left
  obtain ⟨hprints, htells⟩ := Printer.block_tells done (hsane.of_append)
    (fun s hs => readProgram_names htokens hread s (hstatements s hs)) (forall_mem_nil _)
    (Printer.allIdle_of_commands hcommand) (Printer.Told.start hpool) hblock
  have hlater := htells.told.modes
  obtain ⟨hrecords, hwithin, final, hruns, hshows⟩ := hprints.tracks (d := defined) hapart.lawful
    hcommand hfits honce' (fun m hm => (not_mem_nil hm).elim) (Mode.Shows.start hdefined)
  rw [← hlater] at hrecords hwithin hshows
  refine ⟨text, e', hdone, hheader, hrecords, fun m hm => ?_⟩
  obtain ⟨hr, hcurrent⟩ := hwithin m hm
  refine ⟨hcurrent, final, ?_, fun o ho => ?_⟩
  · have hwhole := hprints.whole fun s hs => (Statement.plain_of_isModeCommand (hcommand s hs) options).2.2.1
    rw [hlines, CLine.directives, CLine.splice_eq_self (splices_allLines _ hwhole),
      filterMap_directive?_allLines]
    exact hruns.leads [] rfl
  · have hfound : e'.context.modes.find? m.name = some m := by
      refine ModeRegistry.find?_of_mem ?_ hm
      have hrecords : e'.context.modes.map Mode.bare = Node.registered done := hrecords
      rw [← hrecords, map_map] at honce'
      exact honce'
    rw [← ModeRegistry.selected_of_find? hfound]
    exact hshows.symbols m.bare hr o ho

/-- Two modes, whose selections alternate. -/
theorem recorded_option_is_defined_of_two_modes :
    ∃ tokens program start output e,
      tokenize ("SETMODE M(A, B)\nDEFAULT M = A\nSETMODE N(X, Y)\nDEFINE N = X\nDEFINE M = B\n" ++
        "DEFAULT N = Y\nDEFINE N = Y") "modes" = .ok tokens ∧
      readProgram tokens "modes" [] = .ok program ∧ ({} : Options).emitter = .ok start ∧
      emitProgram start {} program.nodes = (.ok output, e) ∧
      e.context.modes.map (fun m => (m.name, m.current)) = [("M", some "B"), ("N", some "Y")] ∧
      ∀ m ∈ e.context.modes, ∃ final,
        Preprocessor.run ⟨["X", "Y"], []⟩ (CLine.directives e.header) = ⟨final, []⟩ ∧
          ∀ o ∈ m.options, m.symbol o ∈ final ↔ m.current = some o := by
  refine exists_emitted (fun program _ e =>
    e.context.modes.map (fun m => (m.name, m.current)) = [("M", some "B"), ("N", some "Y")] ∧
      (∀ s ∈ Node.statements program.nodes, s.isModeCommand = true) ∧
      Node.ModesApart program.nodes ∧
      ∀ m ∈ Node.registered program.nodes, ∀ o ∈ m.options, m.symbol o ∉ ["X", "Y"]) (by decide +kernel) ?_
  rintro tokens program start output e htokens hread hstart hrun
    ⟨hrecorded, hcommands, hapart, hdefined⟩
  obtain ⟨text, e', hdone, -, -, htracks⟩ := recorded_option_is_defined htokens hread hstart hrun hcommands
    hapart hdefined program.nodes [] (append_nil _).symm
  obtain ⟨-, rfl⟩ := Prod.mk.inj (hrun.symm.trans hdone)
  exact ⟨hrecorded, fun m hm => (htracks m hm).2⟩

end CirOutline
