import CirOutline.Proofs.Emission.Safety
import CirOutline.Proofs.Layout.Progress
import CirOutline.Proofs.Layout.WellFormed
import CirOutline.Proofs.Token.Scanning

/-!
How compilations end. With a pool of at least one counter, a compilation has a result, or it stops
for a cause that lies in the source, or there is no room for the pool of counters or for a margin.
Nothing internal goes wrong: the layout reader does not stall or run out of tokens, groups and
counters balance, and every statement has a C form where it stands.
-/

namespace CirOutline

open TemporaryPool Allocation Emitter

variable {b : Breakdown} {capacity : Int} {fault : Fault} {file source : String}
  {options : Options} {pool : TemporaryPool}

theorem Fault.ofSource_iff :
    fault.ofSource = true ↔ fault.area ≠ .internal ∧ ∀ kind, fault ≠ .unhandledKind kind := by
  cases fault <;> simp [Fault.ofSource, Fault.area]

theorem Fault.ofSource_of_isReading (h : fault.isReading = true) : fault.ofSource = true := by
  cases fault <;> first | rfl | cases h

/-! ### The stages -/

theorem Scan.tokensFrom_problem (l : Location) (cs : List Char) {problem : Problem}
    (h : (tokensFrom l cs).2 = some problem) : problem.fault.ofSource = true := by
  fun_induction tokensFrom l cs with
  | case1 => cases h
  | case2 l c rest hnone | case3 l c rest kind width hfound lexeme hmixed =>
    cases h
    rfl
  | case4 l c rest kind width hfound lexeme hplain tokens later htokens ih =>
    rw [htokens] at ih
    exact ih h

theorem tokenize_error {failure : ScanFailure} (h : tokenize source file = .error failure) :
    failure.diagnostic.fault.ofSource = true := by
  rw [tokenize] at h
  split at h
  · cases h
  · next tokens problem hscan =>
    cases h
    exact Scan.tokensFrom_problem ⟨file, 1, 1⟩ source.toList (by rw [hscan])

theorem readProgram_error {tokens : List Token} {lines : List String} {failure : ProgramFailure}
    (hscan : Scanned tokens) (h : readProgram tokens file lines = .error failure) :
    ∃ d, failure.report = .diagnosed d ∧ d.fault.ofSource = true := by
  have hends := readBlock_blockEnds .statements 0 [] ((Cursor.start tokens file lines).enter 0) (by simp) hscan.spaces
  obtain ⟨⟨stop, cursor, built⟩, hblock, rfl⟩ := readProgram_fails h
  rw [hblock] at hends
  cases stop with
  | diagnosed problem => exact ⟨_, rfl, Fault.ofSource_of_isReading hends.2⟩
  | broken b => exact hends.2.elim

theorem TemporaryPool.create_error (hcapacity : 1 ≤ capacity) (h : create capacity = .error b) :
    cells slotSize capacity = .error b := by
  rw [create, if_neg (by omega)] at h
  cases hcells : cells slotSize capacity with
  | ok count =>
    rw [hcells] at h
    cases h
  | error found =>
    rw [hcells] at h
    cases h
    rfl

theorem Allocation.cells_error (h : cells size length = .error b) :
    b = .lengthOutOfRange ∨ b = .outOfMemory := by
  unfold cells at h
  split_ifs at h
  · exact .inl (Except.error.inj h).symm
  · exact .inr (Except.error.inj h).symm

def Node.Reaches (forest : List Node) (depth : Nat) : Prop :=
  ∃ entry ∈ Node.listing 0 forest, entry.depth = depth

theorem emitProgram_error {forest : List Node} {stop : Stop} {e : Emitter} {lines : List String}
    (hcapacity : pool.capacity ≤ capacityBound)
    (hforest : Node.AllReadable .statements forest)
    (h : emitProgram (start pool lines) options forest = (.error stop, e)) :
    stop.Expected options (Node.Reaches forest) := by
  have hstart : (start pool lines).Sound := by
    refine ⟨⟨?_, ?_⟩, hcapacity⟩ <;> simp [start, Scope.empty]
  have hreaches : ∀ entry ∈ Node.listing 0 forest, Node.Reaches forest entry.depth :=
    fun entry hentry => ⟨entry, hentry, rfl⟩
  have hnodes : Emission.Safe options (Node.Reaches forest) (Emission.nodes options forest)
      (start pool lines) := (Emission.nodes_safe forest hstart (Nat.le_refl 0) hreaches).1 hforest
  have hprogram : Ends (Emission.program options forest) (start pool lines) (fun _ _ => True)
      fun stop _ => stop.Expected options (Node.Reaches forest) := by
    refine Ends.bind (Ends.mono hnodes (fun _ _ => id) fun _ _ => And.left) fun _ e hkept => ?_
    refine Ends.bind_get ?_
    have hclosed : (e.groups != 0) = false := by
      rw [hkept.groups]
      rfl
    simp only [hclosed, Bool.false_eq_true, if_false]
    exact Ends.pure trivial
  rw [emitProgram] at h
  cases hrun : Emission.program options forest (start pool lines) with
  | ok output e =>
    rw [hrun] at h
    cases h
  | error found e =>
    rw [hrun] at h
    cases h
    exact hprogram.error hrun

/-! ### Whole compilations -/

theorem Node.AllWellFormed.readable {reader : LineReader} {depth : Nat} {types : List String}
    {siblings ns : List Node} (h : AllWellFormed reader depth types siblings ns) : AllReadable reader ns := by
  induction ns using forest_induction generalizing reader depth types siblings with
  | nil => trivial
  | cons s location body ns ihbody ihns =>
    obtain ⟨⟨hproper, hallowed, -, hbody⟩, hns⟩ := h
    refine ⟨⟨hproper, fun name hname => ?_, ihbody hbody⟩, ihns hns⟩
    subst hname
    exact hallowed

theorem compile_error {failure : Failure} (h : (compile options source file).2 = .error failure) :
    (∃ b, failure = .reported (.broken b)) ∨
      ∃ d, failure = .reported (.diagnosed d) ∧ d.fault.ofSource = true := by
  unfold compile compileQuoting at h
  cases htokens : tokenize source file with
  | error found =>
    rw [htokens] at h
    exact .inr ⟨_, (Except.error.inj h).symm, tokenize_error htokens⟩
  | ok tokens =>
    have hscan := (tokenize_tokenized htokens).scanned
    cases hread : readProgram tokens file (Text.lines source) with
    | error found =>
      obtain ⟨d, hreport, hd⟩ := readProgram_error hscan hread
      simp only [htokens, hread, hreport] at h
      exact .inr ⟨d, (Except.error.inj h).symm, hd⟩
    | ok program =>
      have hforest := (readProgram_wellFormed hread).1.readable
      simp only [htokens, hread, Options.emitter] at h
      cases hcreate : create options.poolSize with
      | error b =>
        rw [hcreate] at h
        exact .inl ⟨b, (Except.error.inj h).symm⟩
      | ok pool =>
        simp only [hcreate, Except.map] at h
        cases hemit : emitProgram (start pool (Text.lines source)) options program.nodes with
        | mk result e =>
          rw [hemit] at h
          cases result with
          | ok output => cases h
          | error stop =>
            obtain rfl := Except.error.inj h
            have hstop := emitProgram_error (create_ok hcreate) hforest hemit
            cases stop with
            | diagnosed problem => exact .inr ⟨_, rfl, hstop⟩
            | broken b => exact .inl ⟨b, rfl⟩

/-- There is no room for the pool of counters, or for the margin of a line inside groups. -/
def NoRoom (options : Options) (forest : List Node) (b : Breakdown) : Prop :=
  cells slotSize options.poolSize = .error b ∨
    ∃ depth groups, Node.Reaches forest depth ∧ groups ≤ depth ∧
      cells 1 (options.indentWidth * (groups : Nat)) = .error b

/-- A compilation has a result, or stops for a cause in the source, or has no room for the pool or
for a margin of the program that was read. -/
theorem compile_outcome (options : Options) (hpool : 1 ≤ options.poolSize) (source file : String) :
    (∃ compiled, (compile options source file).2 = .ok compiled) ∨
      (∃ d, (compile options source file).2 = .error (.reported (.diagnosed d)) ∧
        d.fault.area ≠ .internal ∧ ∀ kind, d.fault ≠ .unhandledKind kind) ∨
      ∃ b tokens program, (compile options source file).2 = .error (.reported (.broken b)) ∧
        (b = .lengthOutOfRange ∨ b = .outOfMemory) ∧ tokenize source file = .ok tokens ∧
        readProgram tokens file (Text.lines source) = .ok program ∧
        NoRoom options program.nodes b := by
  unfold compile compileQuoting
  cases htokens : tokenize source file with
  | error failure =>
    exact .inr (.inl ⟨_, rfl, Fault.ofSource_iff.mp (tokenize_error htokens)⟩)
  | ok tokens =>
    have hscan := (tokenize_tokenized htokens).scanned
    cases hread : readProgram tokens file (Text.lines source) with
    | error failure =>
      obtain ⟨d, hreport, hd⟩ := readProgram_error hscan hread
      exact .inr (.inl ⟨d, by simp only [hread, hreport], Fault.ofSource_iff.mp hd⟩)
    | ok program =>
      have hforest := (readProgram_wellFormed hread).1.readable
      cases hcreate : create options.poolSize with
      | error b =>
        have hcells := create_error hpool hcreate
        refine .inr (.inr ⟨b, tokens, program, ?_, Allocation.cells_error hcells, rfl, hread,
          .inl hcells⟩)
        simp only [hread, Options.emitter, hcreate, Except.map]
      | ok pool =>
        simp only [hread, Options.emitter, hcreate, Except.map]
        cases hemit : emitProgram (Emitter.start pool (Text.lines source)) options program.nodes with
        | mk result e =>
          cases result with
          | ok output => exact .inl ⟨_, rfl⟩
          | error stop =>
            have hstop := emitProgram_error (create_ok hcreate) hforest hemit
            cases stop with
            | diagnosed problem => exact .inr (.inl ⟨_, rfl, Fault.ofSource_iff.mp hstop⟩)
            | broken b =>
              obtain ⟨depth, groups, hdepth, hgroups, hcells⟩ := hstop
              exact .inr (.inr ⟨b, tokens, program, rfl, Allocation.cells_error hcells, rfl,
                hread, .inr ⟨depth, groups, hdepth, hgroups, hcells⟩⟩)

def nestedLoops : String := "METHOD m:\n  REPEAT 2 TIMES:\n    REPEAT 3 TIMES:\n      PASS"

theorem compile_outcome_of_nested_loops :
    (1 : Int) ≤ ({ poolSize := 2 } : Options).poolSize ∧
      ((∃ compiled, (compile { poolSize := 2 } nestedLoops "loops.cir").2 = .ok compiled) ∨
        (∃ d, (compile { poolSize := 2 } nestedLoops "loops.cir").2 =
            .error (.reported (.diagnosed d)) ∧
          d.fault.area ≠ .internal ∧ ∀ kind, d.fault ≠ .unhandledKind kind) ∨
        ∃ b tokens program,
          (compile { poolSize := 2 } nestedLoops "loops.cir").2 = .error (.reported (.broken b)) ∧
          (b = .lengthOutOfRange ∨ b = .outOfMemory) ∧ tokenize nestedLoops "loops.cir" = .ok tokens ∧
          readProgram tokens "loops.cir" (Text.lines nestedLoops) = .ok program ∧
          NoRoom { poolSize := 2 } program.nodes b) :=
  ⟨by decide, compile_outcome { poolSize := 2 } (by decide) nestedLoops "loops.cir"⟩

/-- A margin that is no machine integer breaks a compilation off, although nothing is wrong with the
source. -/
theorem compile_margin_out_of_range :
    (1 : Int) ≤ ({ indentWidth := -10000000000000000000 } : Options).poolSize ∧
      (compile { indentWidth := -10000000000000000000 } "METHOD m:\n    PASS" "<input>").2 =
        .error (.reported (.broken .lengthOutOfRange)) := by
  refine ⟨by decide, ?_⟩
  have htokens : tokenize "METHOD m:\n    PASS" "<input>" = .ok [
      ⟨.keyword, "METHOD", ⟨"<input>", 1, 1⟩⟩, ⟨.spaces, " ", ⟨"<input>", 1, 7⟩⟩,
      ⟨.word, "m", ⟨"<input>", 1, 8⟩⟩, ⟨.colon, ":", ⟨"<input>", 1, 9⟩⟩,
      ⟨.lineBreak, "\n", ⟨"<input>", 1, 10⟩⟩, ⟨.spaces, "    ", ⟨"<input>", 2, 1⟩⟩,
      ⟨.keyword, "PASS", ⟨"<input>", 2, 5⟩⟩] :=
    eq_ok_of_toOption (by decide +kernel)
  rw [compile, compileQuoting, htokens]
  cbv

/-- The place that a failed compilation reports, and the line it quotes. -/
def quoted? (options : Options) (source file : String) : Option (Option Location × Option String) :=
  match (compile options source file).2 with
  | .error (.reported (.diagnosed d)) => some (d.location, d.context)
  | _ => none

theorem exists_diagnostic {options : Options} {source file : String} {location : Option Location}
    {context : Option String} (h : quoted? options source file = some (location, context)) :
    ∃ d, (compile options source file).2 = .error (.reported (.diagnosed d)) ∧ d.location = location ∧
      d.context = context := by
  unfold quoted? at h
  split at h
  · next d hd =>
    obtain ⟨rfl, rfl⟩ := Prod.mk.inj (Option.some.inj h)
    exact ⟨d, hd, rfl, rfl⟩
  · cases h

end CirOutline
