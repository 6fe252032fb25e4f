import CirOutline.Proofs.Emission.Foretold

/-!
Which variables a program writes at run time. The targets of the writes in the lines of an emission
are those that static scoping foretells, in order. An assignment is written only to a variable that was
declared as mutable; a loop over a range asks only whether its variable is declared. So immutable
variables stay unwritten exactly if no loop takes one.
-/

namespace CirOutline

open Node

variable {start stop : List Token}

theorem Statement.Proper.nameText (h : (forLoop start stop).Proper) :
    iterator? start = some (Scope.nameText (iterator? start)) := by
  obtain ⟨⟨t, rest, rfl, hword⟩, -⟩ := h
  simp [iterator?, hword, Scope.nameText]

namespace Passed

/-- What a statement writes at run time is mutable by the declaration that is in sight. -/
def WritesMutable (past : List Passed) (f : Passed) : Prop :=
  ∀ name ∈ f.target? past, (resolve past f.path.tail (some name)).any Binding.isMutable = true

/-- A loop over a range takes no variable that is declared as immutable. -/
def LoopsMutable (past : List Passed) (f : Passed) : Prop :=
  ∀ name ∈ f.statement.counter?, ∀ b ∈ resolve past f.path.tail name, b.isMutable = true

instance (past : List Passed) (f : Passed) : Decidable (f.WritesMutable past) :=
  inferInstanceAs (Decidable (∀ name ∈ f.target? past, _))

instance (past : List Passed) (f : Passed) : Decidable (f.LoopsMutable past) :=
  inferInstanceAs (Decidable (∀ name ∈ f.statement.counter?, _))

variable {past : List Passed} {f : Passed}

theorem target?_eq (h : f.isMember past = false) : f.target? past =
    (f.statement.event? (resolve past f.path.tail) (repeats past f.path.tail)).bind NameEvent.target? := by
  simp [target?, event?, h]

theorem target?_forLoop (hs : f.statement = .forLoop start stop) (hmember : f.isMember past = false) :
    f.target? past = (resolve past f.path.tail (Statement.iterator? start)).map
      fun _ => Scope.nameText (Statement.iterator? start) := by
  rw [target?_eq hmember, hs, Statement.event?]
  cases resolve past f.path.tail (Statement.iterator? start) <;> rfl

theorem writesMutable_iff (hproper : f.statement.Proper)
    (hmember : f.isMember past = true → f.statement.opensBlock = false) :
    f.WritesMutable past ↔ f.LoopsMutable past := by
  have hother : f.target? past = none → f.statement.counter? = none →
      (f.WritesMutable past ↔ f.LoopsMutable past) := by
    intro htarget hcounter
    refine iff_of_true (fun name hname => ?_) fun name hname => ?_
    · exact absurd (htarget.symm.trans hname) nofun
    · exact absurd (hcounter.symm.trans hname) nofun
  cases hinside : f.isMember past with
  | true =>
    refine hother (by simp [target?, event?, hinside]) ?_
    have hopens := hmember hinside
    cases hs : f.statement with
    | forLoop start stop =>
      rw [hs] at hopens
      cases hopens
    | _ => rfl
  | false =>
    cases hs : f.statement with
    | assignment name expression =>
      refine iff_of_true (fun target htarget => ?_) fun name hname => ?_
      · rw [target?_eq hinside, hs, Statement.event?] at htarget
        split_ifs at htarget with hmutable
        · cases htarget
          exact hmutable
        · cases htarget
      · rw [hs] at hname
        cases hname
    | forLoop start stop =>
      rw [hs] at hproper
      rw [WritesMutable, LoopsMutable, target?_forLoop hs hinside, hs, Statement.counter?]
      cases hfound : resolve past f.path.tail (Statement.iterator? start) with
      | none => simp [hfound]
      | some b =>
        have hnamed : resolve past f.path.tail (some (Scope.nameText (Statement.iterator? start))) =
            some b := hproper.nameText ▸ hfound
        simp [hfound, hnamed]
    | _ =>
      refine hother ?_ (by rw [hs]; rfl)
      rw [target?_eq hinside, hs]
      rfl

end Passed

theorem Foretold.targets {nodes : List Node} {e : Emitter} (h : Foretold nodes e)
    (hmethods : MethodsOutside nodes) : (e.header ++ e.code).filterMap CLine.target? =
      (Passed.steps [] (walkAll [] 0 nodes)).filterMap fun x => x.2.target? x.1 := by
  have hlines : ∀ lines : List String, lines.filterMap CLine.target? =
      (lines.filterMap CLine.event?).filterMap NameEvent.target? := fun lines =>
    List.filterMap_filterMap.symm
  have hbefore : Printer.Before 0 [] := fun g hg => (List.not_mem_nil hg).elim
  obtain ⟨hheader, hcode⟩ :=
    Printer.filterMap_topEvents NameEvent.target? rfl (fun _ => rfl) nodes hmethods hbefore h.idle
  rw [List.filterMap_append, hlines, hlines, h.header, h.code, hheader, hcode]
  rfl

/-- The text of an emission writes at run time the variables that static scoping foretells, and all of
them are mutable where they are written exactly if no loop over a range takes an immutable variable. -/
theorem only_loops_write_immutables {options : Options} {source file : String} {lines : List String}
    {tokens : List Token} {program : Program} {start e : Emitter} {output : String}
    (htokens : tokenize source file = .ok tokens)
    (hread : readProgram tokens file lines = .ok program) (hstart : options.emitter lines = .ok start)
    (hrun : emitProgram start options program.nodes = (.ok output, e)) :
    output = e.output options.includes ∧
    (e.header ++ e.code).filterMap CLine.target? =
      (Passed.steps [] (Node.walkAll [] 0 program.nodes)).filterMap (fun x => x.2.target? x.1) ∧
    ((∀ x ∈ Passed.steps [] (Node.walkAll [] 0 program.nodes), x.2.WritesMutable x.1) ↔
      ∀ x ∈ Passed.steps [] (Node.walkAll [] 0 program.nodes), x.2.LoopsMutable x.1) := by
  have hforetold := emitProgram_foretold htokens hread hstart hrun
  obtain ⟨hmethods, -⟩ := readProgram_statements htokens hread
  have hstatements := (readProgram_wellFormed hread).1.forall_statement
  refine ⟨?_, hforetold.targets hmethods, forall₂_congr fun x hx => ?_⟩
  · obtain ⟨pool, rfl, -⟩ := Options.emitter_start hstart
    obtain ⟨-, -, -, -, -, -, houtput⟩ := emitProgram_wrote hmethods hrun
    exact houtput
  · have hstatement := statement_mem_of_walkAll program.nodes [] 0 _ (Passed.of_mem_steps hx).1
    exact Passed.writesMutable_iff (hstatements _ hstatement).1 (hforetold.members x hx)

/-- A loop may take a mutable variable, and its block may write it. -/
theorem only_loops_write_immutables_of_mutable_counter :
    ∃ tokens program start output e,
      tokenize "METHOD m(Int n):\n  MUTABLE Int(i)\n  FOR i = 0 TO n:\n    i = 2" "loop" = .ok tokens ∧
      readProgram tokens "loop" [] = .ok program ∧ ({} : Options).emitter = .ok start ∧
      emitProgram start {} program.nodes = (.ok output, e) ∧
      (e.header ++ e.code).filterMap CLine.target? = ["i", "i"] ∧
      ∀ x ∈ Passed.steps [] (Node.walkAll [] 0 program.nodes), x.2.WritesMutable x.1 := by
  refine exists_emitted (fun program _ _ => (∀ x ∈ Passed.steps [] (walkAll [] 0 program.nodes),
      x.2.LoopsMutable x.1) ∧ (Passed.steps [] (walkAll [] 0 program.nodes)).filterMap
        (fun x => x.2.target? x.1) = ["i", "i"]) (by decide +kernel) ?_
  rintro tokens program start output e htokens hread hstart hrun ⟨hloops, htargets⟩
  obtain ⟨-, hwritten, hmutable⟩ := only_loops_write_immutables htokens hread hstart hrun
  exact ⟨hwritten.trans htargets, hmutable.mpr hloops⟩

/-- A loop over an immutable variable writes it. -/
theorem loop_writes_immutable :
    ∃ tokens program start output e,
      tokenize "METHOD m:\n    Int(i)\n    FOR i = 0 TO 3:\n        PASS" "<input>" = .ok tokens ∧
      readProgram tokens "<input>" [] = .ok program ∧ ({} : Options).emitter = .ok start ∧
      emitProgram start {} program.nodes = (.ok output, e) ∧
      output = "#include <stdint.h>\n\nvoid m(void);\n\nvoid m(void) \x7b\n    int i;\n" ++
        "    for(i = 0; i <= 3; i++) \x7b\n        //TODO:\n    \x7d\n\x7d" ∧
      ∃ x ∈ Passed.steps [] (Node.walkAll [] 0 program.nodes), x.2.target? x.1 = some "i" ∧
        (resolve x.1 x.2.path.tail (some "i")).map Binding.isMutable = some false := by
  exact exists_emitted _ (by decide +kernel) fun _ _ _ _ h => h

end CirOutline
