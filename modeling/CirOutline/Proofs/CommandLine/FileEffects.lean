import CirOutline.CommandLine.Run
import CirOutline.Proofs.Compilation

/-!
What a run does to the files. A run that ends with another status than success leaves the files as
they were, and so does one that only shows something. Any other run writes one file: the result of
the compilation and a line end, to the name that the arguments give or to the name of the input
with another suffix. The exit status tells how the compilation ended.
-/

namespace CirOutline

variable {fs : FileSystem} {name text : String} {status : ExitStatus}

namespace FileSystem

theorem lookup_put (place other : Place) (bytes : List UInt8) (files : List (Place × List UInt8)) :
    (put place bytes files).lookup other = if other = place then some bytes else files.lookup other := by
  have hcons : ∀ (key : Place) (value : List UInt8) (rest : List (Place × List UInt8)),
      ((key, value) :: rest).lookup other = if other = key then some value else rest.lookup other := by
    intro key value rest
    rw [List.lookup_cons]
    by_cases h : other = key
    · rw [if_pos h, beq_iff_eq.mpr h]
    · rw [if_neg h, beq_eq_false_iff_ne.mpr h]
  induction files with
  | nil => exact hcons place bytes []
  | cons file rest ih =>
    obtain ⟨key, value⟩ := file
    by_cases hkey : key = place
    · simp only [put, hkey, beq_self_eq_true, if_true, hcons]
      split_ifs <;> rfl
    · rw [put, if_neg (by simpa using hkey), hcons, hcons, ih]
      by_cases h : other = key
      · rw [if_pos h, if_pos h, if_neg (h ▸ hkey)]
      · rw [if_neg h, if_neg h]

/-- `later` is `fs` with the text in the file at the place, and with nothing else changed. -/
structure WritesAt (fs : FileSystem) (place : Place) (text : String) (later : FileSystem) :
    Prop where
  written : later.content? place = some text.toUTF8.toList
  others : ∀ other, other ≠ place → later.content? other = fs.content? other
  directories : later.directories = fs.directories
  workingDirectory : later.workingDirectory = fs.workingDirectory

/-- `later` is `fs` with the text in the one file that the name leads to. -/
def Writes (fs : FileSystem) (name text : String) (later : FileSystem) : Prop :=
  ∃ place, (fs.resolve name = .entry place ∧ fs.isDirectory place = false ∨
    fs.resolve name = .vacant place) ∧ fs.WritesAt place text later

def Writable (fs : FileSystem) (name : String) : Prop :=
  ∃ place, fs.resolve name = .entry place ∧ fs.isDirectory place = false ∨
    fs.resolve name = .vacant place

theorem writesAt_put (fs : FileSystem) (place : Place) (text : String) :
    fs.WritesAt place text { fs with files := put place text.toUTF8.toList fs.files } where
  written := (lookup_put place place _ fs.files).trans (if_pos rfl)
  others other hother := (lookup_put place other _ fs.files).trans (if_neg hother)
  directories := rfl
  workingDirectory := rfl

theorem writes_of_writeText {later : FileSystem} (h : fs.writeText name text = .ok later) :
    fs.Writes name text later := by
  simp only [writeText] at h
  cases hresolve : fs.resolve name with
  | entry place =>
    simp only [hresolve] at h
    split at h
    · cases h
    · next hplace =>
      obtain rfl := Except.ok.inj h
      exact ⟨place, .inl ⟨hresolve, Bool.eq_false_iff.mpr hplace⟩, writesAt_put fs place text⟩
  | vacant place =>
    simp only [hresolve] at h
    obtain rfl := Except.ok.inj h
    exact ⟨place, .inr hresolve, writesAt_put fs place text⟩
  | missing | notDirectory | tooLong | hasNull => simp [hresolve] at h

theorem writeText_ne_reported {report : Stop} : fs.writeText name text ≠ .error (.reported report) := by
  simp only [writeText]
  split
  · split <;> simp
  all_goals simp

theorem writeText_of_writable (h : fs.Writable name) (text : String) :
    ∃ later, fs.writeText name text = .ok later := by
  obtain ⟨place, ⟨hresolve, hplace⟩ | hresolve⟩ := h
  · exact ⟨_, by simp only [writeText, hresolve, hplace]; rfl⟩
  · exact ⟨_, by simp only [writeText, hresolve]; rfl⟩

end FileSystem

namespace CommandLine

variable {a : Arguments}

def Arguments.source (a : Arguments) : String := (Path.ofText a.input).text

def Arguments.target (a : Arguments) : String :=
  match a.output with
  | some name => (Path.ofText name).text
  | none => ((Path.ofText a.input).withSuffix ".c").text

def Arguments.shows (a : Arguments) : Bool := a.tokens || a.ast || a.toStdout

/-- The settings of a run: those of the arguments, then of the environment, then the defaults. -/
def Arguments.options (a : Arguments) (environment : List (String × String)) : Options :=
  effectiveOptions a (Options.fromEnvironment environment).1

/-! ### How a run ends -/

theorem ExitStatus.code_eq_zero : status.code = 0 ↔ status = .success := by
  cases status <;> simp [ExitStatus.code]

theorem ExitStatus.code_eq_one : status.code = 1 ↔ status = .buildError := by
  cases status <;> simp [ExitStatus.code]

theorem fail_status_ne_success (fs : FileSystem) (stderr : String) (failure : Failure) :
    (fail fs stderr failure).status ≠ .success := by
  have hreport : ∀ trouble : Trouble, (trouble.report (some "Compilation")).2 ≠ .success := by
    intro trouble
    cases trouble with
    | diagnosed d =>
      simp only [Trouble.report]
      split <;> simp
    | _ => simp [Trouble.report]
  exact hreport (troubleOf failure)

theorem fail_status_eq_buildError (fs : FileSystem) (stderr : String) (failure : Failure) :
    (fail fs stderr failure).status = .buildError ↔
      ∃ d, failure = .reported (.diagnosed d) ∧ d.fault.area ≠ .internal := by
  cases failure with
  | reported report =>
    cases report with
    | diagnosed d =>
      simp only [fail, troubleOf, Trouble.report]
      split_ifs with harea <;> simp_all
    | broken b => simp [fail, troubleOf, Trouble.report]
  | _ => simp [fail, troubleOf, Trouble.report]

/-- How the work on a source ends. -/
inductive Ending (fs : FileSystem) (a : Arguments) (options : Options) (source : String) :
    Outcome → Prop
  /-- The tokens are shown, or the text has none. -/
  | listed (outcome : Outcome) (htokens : a.tokens = true) (hfiles : outcome.files = fs) :
      Ending fs a options source outcome
  | failed (stderr : String) (failure : Failure)
      (hcompile : (compile options source a.source).2 = .error failure) :
      Ending fs a options source (fail fs stderr failure)
  | shown (outcome : Outcome) (compiled : Compiled)
      (hcompile : (compile options source a.source).2 = .ok compiled) (hshows : a.shows = true)
      (hstatus : outcome.status = .success) (hfiles : outcome.files = fs) :
      Ending fs a options source outcome
  | unwritten (stderr : String) (compiled : Compiled) (failure : Failure)
      (hcompile : (compile options source a.source).2 = .ok compiled) (hshows : a.shows = false)
      (hwrite : fs.writeText a.target (compiled.output ++ "\n") = .error failure) :
      Ending fs a options source (fail fs stderr failure)
  | written (outcome : Outcome) (compiled : Compiled)
      (hcompile : (compile options source a.source).2 = .ok compiled) (hshows : a.shows = false)
      (hwrite : fs.writeText a.target (compiled.output ++ "\n") = .ok outcome.files)
      (hstatus : outcome.status = .success) : Ending fs a options source outcome

theorem compileSource_ending (fs : FileSystem) (a : Arguments) (options : Options) (stderr source : String) :
    Ending fs a options source (compileSource fs a options a.source a.target stderr source) := by
  unfold compileSource
  split
  · next htokens =>
    split
    · exact .listed _ htokens rfl
    · exact .listed _ htokens rfl
  · next htokens =>
    dsimp only
    split
    · next failure hcompile => exact .failed _ failure hcompile
    · next compiled hcompile =>
      split_ifs with hast hstdout
      · exact .shown _ compiled hcompile (by simp [Arguments.shows, hast]) rfl rfl
      · exact .shown _ compiled hcompile (by simp [Arguments.shows, hstdout]) rfl rfl
      · have hshows : a.shows = false := by simp [Arguments.shows, htokens, hast, hstdout]
        unfold writeResult
        split
        · next failure hwrite => exact .unwritten _ compiled failure hcompile hshows hwrite
        · next later hwrite => exact .written _ compiled hcompile hshows hwrite rfl

theorem execute_of_unread (environment : List (String × String)) {failure : Failure}
    (h : fs.readText a.source = .error failure) :
    ∃ stderr, execute fs environment a = fail fs stderr failure := by
  unfold execute
  dsimp only
  rw [show fs.readText (Path.ofText a.input).text = _ from h]
  exact ⟨_, rfl⟩

theorem execute_of_read (environment : List (String × String)) {source : String}
    (h : fs.readText a.source = .ok source) :
    ∃ stderr, execute fs environment a =
      compileSource fs a (a.options environment) a.source a.target stderr source := by
  unfold execute
  dsimp only
  rw [show fs.readText (Path.ofText a.input).text = _ from h]
  exact ⟨_, rfl⟩

/-- What a run leaves of the files, and its exit status. A run that fails or shows something changes
no file. Any other run writes the C text and a line end to the one file that its target leads to. If
the input can be read, the status is zero when the compilation succeeds (and the target, if there is
one, can be written) and one when the compilation reports a fault. -/
theorem run_writes_only_on_success {arguments : List String} (environment : List (String × String))
    (hrun : readArguments fs arguments = .ok (.run a)) :
    let outcome := run arguments environment fs
    (outcome.status.code ≠ 0 → outcome.files = fs) ∧
    (a.shows = true → outcome.files = fs) ∧
    (outcome.status.code = 0 → a.shows = false → ∃ source compiled,
      fs.readText a.source = .ok source ∧
      (compile (a.options environment) source a.source).2 = .ok compiled ∧
      fs.Writes a.target (compiled.output ++ "\n") outcome.files) ∧
    ∀ source, fs.readText a.source = .ok source → a.tokens = false →
      (a.shows = true ∨ fs.Writable a.target → (outcome.status.code = 0 ↔
        ∃ compiled, (compile (a.options environment) source a.source).2 = .ok compiled)) ∧
      (outcome.status.code = 1 ↔ ∃ d,
        (compile (a.options environment) source a.source).2 = .error (.reported (.diagnosed d))) := by
  intro outcome
  have hexecute : outcome = execute fs environment a := by simp only [outcome, run, hrun]
  cases hread : fs.readText a.source with
  | error failure =>
    obtain ⟨stderr, hfailed⟩ := execute_of_unread environment hread
    rw [hexecute, hfailed]
    have hfail := fail_status_ne_success fs stderr failure
    refine ⟨fun _ => rfl, fun _ => rfl, fun hcode => ?_, fun source hsource => by cases hsource⟩
    exact absurd (ExitStatus.code_eq_zero.mp hcode) hfail
  | ok source =>
    simp only [ExitStatus.code_eq_zero, ExitStatus.code_eq_one, Except.ok.injEq, forall_eq', ne_eq]
    obtain ⟨stderr, hworked⟩ := execute_of_read environment hread
    rw [hexecute, hworked]
    generalize houtcome : compileSource fs a _ _ _ _ _ = outcome
    have hending := houtcome ▸ compileSource_ending fs a (a.options environment) stderr source
    cases hending with
    | listed _ htokens hfiles =>
      have hshows : a.shows = true := by simp [Arguments.shows, htokens]
      simp [hfiles, hshows, htokens]
    | failed stderr failure hcompile =>
      have hfail := fail_status_ne_success fs stderr failure
      have hbuild : (fail fs stderr failure).status = .buildError ↔
          ∃ d, failure = .reported (.diagnosed d) := by
        rw [fail_status_eq_buildError]
        refine ⟨fun ⟨d, hd, _⟩ => ⟨d, hd⟩, ?_⟩
        rintro ⟨d, rfl⟩
        obtain ⟨b, hb⟩ | ⟨found, hfound, hsource⟩ := compile_error hcompile
        · cases hb
        · cases hfound
          exact ⟨d, rfl, (Fault.ofSource_iff.mp hsource).1⟩
      refine ⟨fun _ => rfl, fun _ => rfl, fun h => absurd h hfail, fun _ => ⟨fun _ => ?_, ?_⟩⟩
      · simp [hfail, hcompile]
      · rw [hbuild, hcompile]
        simp
    | shown _ compiled hcompile hshows hstatus hfiles =>
      simp [hstatus, hshows, hfiles, hcompile]
    | unwritten stderr compiled failure hcompile hshows hwrite =>
      have hfail := fail_status_ne_success fs stderr failure
      have hbuild : (fail fs stderr failure).status ≠ .buildError := fun h => by
        obtain ⟨d, rfl, -⟩ := (fail_status_eq_buildError fs stderr failure).mp h
        exact FileSystem.writeText_ne_reported hwrite
      refine ⟨fun _ => rfl, fun _ => rfl, fun h => absurd h hfail, fun _ => ⟨?_, ?_⟩⟩
      · rintro (hshown | hwritable)
        · cases hshows.symm.trans hshown
        · obtain ⟨later, hlater⟩ := FileSystem.writeText_of_writable hwritable (compiled.output ++ "\n")
          cases hwrite.symm.trans hlater
      · simp [hbuild, hcompile]
    | written _ compiled hcompile hshows hwrite hstatus =>
      have hwrites := FileSystem.writes_of_writeText hwrite
      simp [hstatus, hshows, hcompile, hwrites]

/-- A folder with one file. -/
def sourceFolder (content : List UInt8) : FileSystem where
  workingDirectory := ["work"]
  directories := []
  files := [(["work", "m.cir"], content)]

abbrev passFolder : FileSystem := sourceFolder [80, 65, 83, 83]

theorem splitOn_slash_input : "m.cir".splitOn "/" = ["m.cir"] := by cbv

theorem ofText_input : Path.ofText "m.cir" = ⟨"", ["m.cir"]⟩ := by
  rw [Path.ofText, splitOn_slash_input]
  rfl

theorem source_of_input : Arguments.source { input := "m.cir" } = "m.cir" := by
  rw [Arguments.source, ofText_input]
  decide +kernel

theorem target_of_input : Arguments.target { input := "m.cir" } = "m.c" := by
  simp only [Arguments.target, ofText_input]
  decide +kernel

theorem resolve_input (content : List UInt8) :
    (sourceFolder content).resolve "m.cir" = .entry ["work", "m.cir"] := by
  rw [FileSystem.resolve, splitOn_slash_input]
  rfl

theorem readText_input : passFolder.readText "m.cir" = .ok "PASS" := by
  rw [FileSystem.readText, resolve_input]
  cbv

theorem readArguments_single (hname : name ≠ "--") (hword : isOptionWord name = false)
    (hcheck : checkInput fs name = .ok ()) : readArguments fs [name] = .ok (.run { input := name }) := by
  have htaken : takeApart [name] = .ok ⟨[], [name]⟩ := by
    rw [takeApart, if_neg (by simpa using hname), if_pos (by simp [hword])]
    rfl
  have hnone : informationRequest? [] = none := rfl
  simp only [readArguments, htaken, hnone, bind, Except.bind, List.headD_cons]
  simp only [hcheck]
  rfl

theorem readArguments_input (content : List UInt8) :
    readArguments (sourceFolder content) ["m.cir"] = .ok (.run { input := "m.cir" }) := by
  refine readArguments_single (by decide) rfl ?_
  simp only [checkInput, FileSystem.nameExists, FileSystem.nameIsDirectory, resolve_input]
  rfl

/-- The C text of a file is written beside it, and a file that does not compile leaves the folder as it
was. -/
theorem run_writes_beside_source :
    readArguments passFolder ["m.cir"] = .ok (.run { input := "m.cir" }) ∧
      (∃ compiled, (compile {} "PASS" "m.cir").2 = .ok compiled ∧
        passFolder.Writes "m.c" (compiled.output ++ "\n") (run ["m.cir"] [] passFolder).files) ∧
      readArguments (sourceFolder [120]) ["m.cir"] = .ok (.run { input := "m.cir" }) ∧
      (run ["m.cir"] [] (sourceFolder [120])).status.code = 1 ∧
      (run ["m.cir"] [] (sourceFolder [120])).files = sourceFolder [120] := by
  have hout : "m.c".splitOn "/" = ["m.c"] := by cbv
  have hvacant : passFolder.resolve "m.c" = .vacant ["work", "m.c"] := by
    rw [FileSystem.resolve, hout]
    rfl
  have hsettings : Arguments.options { input := "m.cir" } [] = {} := rfl
  have hword : (sourceFolder [120]).readText "m.cir" = .ok "x" := by
    rw [FileSystem.readText, resolve_input]
    cbv
  obtain ⟨-, -, hwrites, hstatus⟩ := run_writes_only_on_success [] (readArguments_input [80, 65, 83, 83])
  obtain ⟨hkept, -, -, hfails⟩ := run_writes_only_on_success [] (readArguments_input [120])
  rw [source_of_input, target_of_input, hsettings, readText_input] at hwrites
  rw [source_of_input, target_of_input, hsettings] at hstatus hfails
  obtain ⟨compiled, hcompiled⟩ := Option.isSome_iff_exists.mp
    (show (compile {} "PASS" "m.cir").2.toOption.isSome = true by decide +kernel)
  have hcode := (hstatus "PASS" readText_input rfl).1 (.inr ⟨_, .inr hvacant⟩)
  obtain ⟨source, written, hsame, hwritten, hwrites⟩ :=
    hwrites (hcode.mpr ⟨compiled, eq_ok_of_toOption hcompiled⟩) rfl
  cases hsame
  have hquoted : quoted? {} "x" "m.cir" = some (some ⟨"m.cir", 1, 1⟩, some "x") := by decide +kernel
  obtain ⟨d, hd, -⟩ := exists_diagnostic hquoted
  have hone := (hfails "x" hword rfl).2.mpr ⟨d, hd⟩
  refine ⟨readArguments_input _, ⟨written, hwritten, hwrites⟩, readArguments_input _, hone, hkept ?_⟩
  rw [hone]
  decide

end CommandLine

end CirOutline
