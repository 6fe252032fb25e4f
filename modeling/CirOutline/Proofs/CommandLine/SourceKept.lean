import CirOutline.Proofs.CommandLine.Settings
import CirOutline.Proofs.FileNames

/-!
Without an option for the output a run writes beside its source, and what it writes to is the source
itself exactly when the name of the source ends as the names of C text do. Every other source is kept,
however the run ends.
-/

namespace CirOutline.CommandLine

open List

variable {fs : FileSystem} {arguments : List String} {a b : Arguments} {place next : Place}

/-! ### Arguments that name no output -/

def NamesOutput (arguments : List String) : Prop :=
  ∃ raw, takeApart arguments = .ok raw ∧ .output ∈ raw.options.map Prod.fst

theorem applyOption_keeps {entry : OptionName × String} (h : applyOption fs a entry = .ok b) :
    b.input = a.input ∧ (entry.1 ≠ .output → b.output = a.output) := by
  obtain ⟨name, text⟩ := entry
  cases name with
  | output =>
    simp only [applyOption] at h
    split_ifs at h
    cases h
    exact ⟨rfl, fun hother => absurd rfl hother⟩
  | indent | tempPool =>
    simp only [applyOption] at h
    cases hread : readAtLeast _ _ text <;> rw [hread] at h <;> cases h
    exact ⟨rfl, fun _ => rfl⟩
  | _ =>
    cases h
    exact ⟨rfl, fun _ => rfl⟩

theorem foldlM_applyOption_keeps {options : List (OptionName × String)}
    (h : options.foldlM (applyOption fs) a = .ok b) :
    b.input = a.input ∧ (.output ∉ options.map Prod.fst → b.output = a.output) := by
  induction options generalizing a with
  | nil =>
    cases h
    exact ⟨rfl, fun _ => rfl⟩
  | cons entry options ih =>
    rw [foldlM_cons] at h
    cases hone : applyOption fs a entry with
    | error fault =>
      rw [hone] at h
      cases h
    | ok c =>
      rw [hone] at h
      obtain ⟨hinput, houtput⟩ := applyOption_keeps hone
      obtain ⟨hinput', houtput'⟩ := ih h
      refine ⟨hinput'.trans hinput, fun hother => ?_⟩
      rw [map_cons, mem_cons, not_or] at hother
      exact (houtput' hother.2).trans (houtput (Ne.symm hother.1))

theorem readArguments_run (h : readArguments fs arguments = .ok (.run a)) :
    checkInput fs a.input = .ok () ∧ (¬ NamesOutput arguments → a.output = none) := by
  simp only [readArguments, bind, Except.bind] at h
  split at h
  · cases h
  next raw htaken =>
  split at h
  next request hrequest =>
    cases h
    obtain ⟨⟨name, text⟩, -, hname⟩ := exists_of_findSome?_eq_some hrequest
    cases name <;> cases hname
  split at h
  · cases h
  next settings hsettings =>
  obtain ⟨hinput, houtput⟩ := foldlM_applyOption_keeps hsettings
  split at h
  · cases h
  next name surplus hothers =>
  split at h
  · cases h
  next hcheck =>
  split_ifs at h
  cases h
  refine ⟨?_, fun hplain => houtput fun hmem => hplain ⟨raw, htaken, ?_⟩⟩
  · rw [hinput, hothers]
    exact hcheck
  · simpa [lastValues, mem_eraseDups] using hmem

theorem resolve_of_checkInput {name : String} (h : checkInput fs name = .ok ()) :
    ∃ place, fs.resolve name = .entry place ∧ fs.isDirectory place = false := by
  unfold checkInput at h
  split_ifs at h with hnull hexists hdirectory
  rw [Bool.not_eq_true, Bool.not_eq_false', FileSystem.nameExists] at hexists
  rw [FileSystem.nameIsDirectory, Bool.not_eq_true] at hdirectory
  cases hresolve : fs.resolve name with
  | entry place =>
    rw [hresolve] at hdirectory
    exact ⟨place, rfl, hdirectory⟩
  | vacant | missing | notDirectory | tooLong | hasNull =>
    rw [hresolve] at hexists
    cases hexists

/-! ### The default target -/

/-- The name of the source ends in `.c`, with something before the dot. -/
def Arguments.EndsAsTarget (a : Arguments) : Prop :=
  ∃ folders stem, stem ≠ "" ∧ (Path.ofText a.input).parts = folders ++ [stem ++ ".c"]

theorem Arguments.endsAsTarget_iff {folders : List String} {last : String}
    (hparts : (Path.ofText a.input).parts = folders ++ [last]) :
    a.EndsAsTarget ↔ Path.resuffix ".c" last = last := by
  rw [Path.resuffix_eq_self, EndsAsTarget, hparts]
  constructor
  · rintro ⟨_, stem, hne, hlast⟩
    exact ⟨stem, hne, singleton_inj.mp (append_inj_right' hlast rfl)⟩
  · rintro ⟨stem, hne, rfl⟩
    exact ⟨folders, stem, hne, rfl⟩

/-- The default target leads to the source exactly if it is the source. -/
theorem target_spec (houtput : a.output = none) (hplace : fs.resolve a.input = .entry place)
    (hfile : fs.isDirectory place = false) :
    (∀ next, (fs.resolve a.target).To next → (next = place ↔ a.EndsAsTarget)) ∧
      (a.EndsAsTarget → a.target = a.source) := by
  have htarget : a.target = ((Path.ofText a.input).withSuffix ".c").text := by
    rw [Arguments.target, houtput]
  have hnormal := Path.normal_ofText a.input
  have hsource := FileSystem.resolve_eq_follow (.inl hplace)
  rw [hplace] at hsource
  rcases eq_nil_or_concat' (Path.ofText a.input).parts with hnil | ⟨folders, last, hparts⟩
  · -- a name without parts leads to a directory
    rw [hnil] at hsource
    cases hsource
    cases hfile.symm.trans (fs.isDirectory_start _)
  · rw [Arguments.endsAsTarget_iff hparts]
    refine ⟨fun next hnext => ?_, fun hsame => ?_⟩
    · have hlast := hnormal.parts last (by simp [hparts])
      obtain ⟨stem, hstem, -⟩ := Path.resuffix_spec last
      rw [FileSystem.resolve_eq_follow hnext, htarget, Path.ofText_text (hnormal.withSuffix hparts),
        Path.withSuffix_spec hparts] at hnext
      · rw [hparts] at hsource
        exact FileSystem.place_eq_iff ⟨hlast.1, hlast.2.1⟩ (hstem ▸ Path.append_suffix_ne stem)
          (.inl hsource.symm) hnext
      · simp [Path.withSuffix_spec hparts]
    · rw [htarget, Arguments.source, Path.withSuffix_spec hparts, hsame, ← hparts]

/-! ### Runs -/

/-- The source can be read, and the text is what compiling it gives, with a line end. -/
def Arguments.Gives (a : Arguments) (fs : FileSystem) (environment : List (String × String)) (text : String) :
    Prop :=
  ∃ source compiled, fs.readText a.source = .ok source ∧
    (compile (a.options environment) source a.source).2 = .ok compiled ∧ text = compiled.output ++ "\n"

variable {environment : List (String × String)} {text : String}

theorem Arguments.Gives.unique {other : String} (h : a.Gives fs environment text)
    (hother : a.Gives fs environment other) : text = other := by
  obtain ⟨source, compiled, hread, hcompile, rfl⟩ := h
  obtain ⟨source', compiled', hread', hcompile', rfl⟩ := hother
  cases hread.symm.trans hread'
  cases hcompile.symm.trans hcompile'
  rfl

theorem Arguments.Gives.resolve (h : a.Gives fs environment text) : ∃ place, fs.resolve a.source = .entry place := by
  obtain ⟨source, -, hread, -⟩ := h
  unfold FileSystem.readText at hread
  split at hread
  case h_1 place hplace => exact ⟨place, hplace⟩
  all_goals cases hread

theorem execute_files (fs : FileSystem) (environment : List (String × String)) (a : Arguments) :
    (∃ text, a.Gives fs environment text ∧ a.shows = false ∧
        fs.writeText a.target text = .ok (execute fs environment a).files) ∨
      (execute fs environment a).files = fs ∧ ∀ text, a.Gives fs environment text → a.shows = false →
        ∃ failure, fs.writeText a.target text = .error failure := by
  cases hread : fs.readText a.source with
  | error failure =>
    obtain ⟨stderr, hfailed⟩ := execute_of_unread environment hread
    rw [hfailed]
    refine .inr ⟨rfl, ?_⟩
    rintro _ ⟨source, -, hsource, -⟩
    cases hread.symm.trans hsource
  | ok source =>
    obtain ⟨stderr, hworked⟩ := execute_of_read environment hread
    rw [hworked]
    generalize houtcome : compileSource fs a _ _ _ _ _ = outcome
    have hending := houtcome ▸ compileSource_ending fs a (a.options environment) stderr source
    cases hending with
    | listed _ htokens hfiles =>
      exact .inr ⟨hfiles, fun _ _ hshows => by simp [Arguments.shows, htokens] at hshows⟩
    | failed stderr failure hcompile =>
      refine .inr ⟨rfl, ?_⟩
      rintro _ ⟨source', compiled, hsource, hcompiled, -⟩
      cases hread.symm.trans hsource
      cases hcompile.symm.trans hcompiled
    | shown _ compiled hcompile hshows hstatus hfiles =>
      exact .inr ⟨hfiles, fun _ _ hshown => by cases hshows.symm.trans hshown⟩
    | unwritten stderr compiled failure hcompile hshows hwrite =>
      refine .inr ⟨rfl, fun text hgives _ => ⟨failure, ?_⟩⟩
      rw [hgives.unique ⟨source, compiled, hread, hcompile, rfl⟩, hwrite]
    | written _ compiled hcompile hshows hwrite hstatus =>
      exact .inl ⟨_, ⟨source, compiled, hread, hcompile, rfl⟩, hshows, hwrite⟩

theorem execute_changes_iff (environment : List (String × String)) (houtput : a.output = none)
    (hcheck : checkInput fs a.input = .ok ()) : ∃ place, fs.resolve a.input = .entry place ∧
      ((execute fs environment a).files.content? place ≠ fs.content? place ↔
        a.EndsAsTarget ∧ a.shows = false ∧
          ∃ text, a.Gives fs environment text ∧ fs.content? place ≠ some text.toUTF8.toList) := by
  obtain ⟨place, hplace, hfile⟩ := resolve_of_checkInput hcheck
  obtain ⟨hto, hsame⟩ := target_spec houtput hplace hfile
  refine ⟨place, hplace, ?_⟩
  rcases execute_files fs environment a with ⟨text, hgives, hshows, hwrite⟩ | ⟨hfiles, hfails⟩
  · obtain ⟨next, hnext, hwritten⟩ := FileSystem.writes_of_writeText hwrite
    have hends := hto next (hnext.imp_left And.left)
    by_cases hplace : next = place
    · subst hplace
      rw [hwritten.written]
      refine ⟨fun h => ⟨hends.mp rfl, hshows, text, hgives, h.symm⟩, ?_⟩
      rintro ⟨-, -, other, hother, hne⟩
      rw [hgives.unique hother]
      exact hne.symm
    · rw [hwritten.others place (Ne.symm hplace)]
      exact ⟨fun h => absurd rfl h, fun h => absurd (hends.mpr h.1) hplace⟩
  · rw [hfiles]
    refine ⟨fun h => absurd rfl h, ?_⟩
    rintro ⟨hends, hshows, text, hgives, -⟩
    -- the target is the source, which is there to be written
    obtain ⟨failure, hwrite⟩ := hfails text hgives hshows
    obtain ⟨next, hnext⟩ := hgives.resolve
    rw [← hsame hends] at hnext
    obtain rfl := (hto next (.inl hnext)).mpr hends
    obtain ⟨later, hlater⟩ := FileSystem.writeText_of_writable ⟨next, .inl ⟨hnext, hfile⟩⟩ text
    cases hwrite.symm.trans hlater

/-- A run without an option for the output changes the file it reads only if the name of that file ends in
`.c`, with something before the dot, and then exactly if it compiles the file, shows nothing and gets another
text. A run that is refused, or that is asked for information, changes no file. -/
theorem source_changes_iff (fs : FileSystem) (environment : List (String × String)) (arguments : List String)
    (hplain : ¬ NamesOutput arguments) :
    (∀ a, readArguments fs arguments = .ok (.run a) → ∃ place, fs.resolve a.input = .entry place ∧
      ((run arguments environment fs).files.content? place ≠ fs.content? place ↔
        a.EndsAsTarget ∧ a.shows = false ∧
          ∃ text, a.Gives fs environment text ∧ fs.content? place ≠ some text.toUTF8.toList)) ∧
    ((∀ a, readArguments fs arguments ≠ .ok (.run a)) → (run arguments environment fs).files = fs) := by
  refine ⟨fun a hrun => ?_, fun hnone => ?_⟩
  · obtain ⟨hcheck, houtput⟩ := readArguments_run hrun
    simp only [run, hrun]
    exact execute_changes_iff environment (houtput hplain) hcheck
  · unfold run
    split
    case h_5 a hrun => exact absurd hrun (hnone a)
    all_goals rfl

theorem not_namesOutput_single {name : String} (h : takeApart [name] = .ok ⟨[], [name]⟩) :
    ¬ NamesOutput [name] := by
  rintro ⟨raw, htaken, hmem⟩
  cases h.symm.trans htaken
  cases hmem

/-- A source with another suffix is kept. -/
theorem source_kept_beside_target :
    ¬ NamesOutput ["m.cir"] ∧ (run ["m.cir"] [] passFolder).files.content? ["work", "m.cir"] =
      passFolder.content? ["work", "m.cir"] := by
  refine ⟨not_namesOutput_single rfl, ?_⟩
  obtain ⟨place, hplace, hchanges⟩ := (source_changes_iff passFolder [] ["m.cir"]
    (not_namesOutput_single rfl)).1 _ (readArguments_input _)
  cases (resolve_input _).symm.trans hplace
  have hparts : (Path.ofText "m.cir").parts = [] ++ ["m.cir"] := by rw [ofText_input, nil_append]
  by_contra hchanged
  have hends := (hchanges.mp hchanged).1
  exact absurd ((Arguments.endsAsTarget_iff hparts).mp hends) (by decide +kernel)

/-- A folder with a source that is named as C text is. -/
def ownFolder : FileSystem where
  workingDirectory := ["work"]
  directories := []
  files := [(["work", "m.c"], "PASS".toUTF8.toList)]

/-- Such a source is replaced by its own translation. -/
theorem source_overwritten :
    ¬ NamesOutput ["m.c"] ∧ readArguments ownFolder ["m.c"] = .ok (.run { input := "m.c" }) ∧
      ownFolder.resolve "m.c" = .entry ["work", "m.c"] ∧
      (run ["m.c"] [] ownFolder).files.content? ["work", "m.c"] ≠ ownFolder.content? ["work", "m.c"] := by
  have hsplit : "m.c".splitOn "/" = ["m.c"] := by
    rw [splitOn_slash]
    decide +kernel
  have hresolve : ownFolder.resolve "m.c" = .entry ["work", "m.c"] := by
    rw [FileSystem.resolve, hsplit]
    rfl
  have hpath : Path.ofText "m.c" = ⟨"", [] ++ ["m.c"]⟩ := by
    rw [Path.ofText, hsplit]
    rfl
  have hsource : Arguments.source { input := "m.c" } = "m.c" := by
    rw [Arguments.source, hpath]
    decide +kernel
  have hcheck : checkInput ownFolder "m.c" = .ok () := by
    simp only [checkInput, FileSystem.nameExists, FileSystem.nameIsDirectory, hresolve]
    rfl
  have hread : ownFolder.readText "m.c" = .ok "PASS" := by
    rw [FileSystem.readText, hresolve]
    cbv
  have hrun := readArguments_single (by decide) rfl hcheck
  have hends : Arguments.EndsAsTarget { input := "m.c" } :=
    (Arguments.endsAsTarget_iff (congrArg Path.parts hpath)).mpr (by decide +kernel)
  have hcompile : (compile {} "PASS" "m.c").2.toOption.map Compiled.output =
      some "#include <stdint.h>\n\n//TODO:\n" := by decide +kernel
  obtain ⟨compiled, hcompiled, houtput⟩ := Option.map_eq_some_iff.mp hcompile
  have hgives : Arguments.Gives { input := "m.c" } ownFolder [] (compiled.output ++ "\n") :=
    ⟨"PASS", compiled, hsource.symm ▸ hread, hsource.symm ▸ eq_ok_of_toOption hcompiled, rfl⟩
  obtain ⟨place, hplace, hchanges⟩ := execute_changes_iff (a := { input := "m.c" }) [] rfl hcheck
  cases hresolve.symm.trans hplace
  refine ⟨not_namesOutput_single rfl, hrun, hresolve, ?_⟩
  simp only [run, hrun]
  refine hchanges.mpr ⟨hends, rfl, _, hgives, ?_⟩
  rw [houtput]
  decide +kernel

end CirOutline.CommandLine
