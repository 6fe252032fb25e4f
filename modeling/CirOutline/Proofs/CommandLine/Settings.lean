import CirOutline.Proofs.CommandLine.FileEffects
import CirOutline.Proofs.TemporaryPool

/-!
A number can be set by an option and by an environment variable. An option that is given first is the
first to be checked, and the run it asks for differs from a run without it in that one setting alone;
the variable is checked for being a number and for nothing else.
-/

namespace CirOutline

open List Text

variable {arguments : List String} {n : Int}

theorem Text.Numeral.integer?_toString (n : Int) :
    integer? (toString n) = if (Nat.toDigits 10 n.natAbs).length ≤ digitLimit then some n else none := by
  have hdigit : ∀ m, ∀ c ∈ Nat.toDigits 10 m, c.isDigit = true := fun m c hc =>
    Nat.isDigit_of_mem_toDigits (by decide) (by decide) hc
  have hmargin : ∀ c : Char, c.isDigit = true → isMargin c = false := by
    intro c hc
    have hrange : 48 ≤ c.toNat ∧ c.toNat ≤ 57 := by
      simpa [Char.isDigit, UInt32.le_iff_toNat_le] using hc
    simp [isMargin, isBlank, blankRanges, CodeRanges.has]
    omega
  have hkeep : ∀ cs : List Char, (∀ c ∈ cs, isMargin c = false) →
      dropEndWhile isMargin (cs.dropWhile isMargin) = cs := by
    intro cs hcs
    have hdrop : ∀ ds : List Char, (∀ c ∈ ds, isMargin c = false) → ds.dropWhile isMargin = ds := by
      rintro (_ | ⟨d, ds⟩) hds
      · rfl
      · exact dropWhile_cons_of_neg (by simp [hds d])
    rw [hdrop cs hcs, dropEndWhile, hdrop _ (by simpa using hcs), reverse_reverse]
  cases n with
  | ofNat m =>
    have htext : (toString (Int.ofNat m)).toList = Nat.toDigits 10 m := by
      rw [show toString (Int.ofNat m) = toString m from rfl, Nat.toString_eq_ofList_toDigits, String.toList_ofList]
    rw [integer?, htext, hkeep _ fun c hc => hmargin c (hdigit m c hc)]
    split
    · next rest hsign => exact absurd (hdigit m '-' (by simp [hsign])) (by decide)
    · next rest hsign => exact absurd (hdigit m '+' (by simp [hsign])) (by decide)
    · rw [natural?_toDigits, show (Int.ofNat m).natAbs = m from rfl, apply_ite (Option.map Int.ofNat)]
      rfl
  | negSucc m =>
    have htext : (toString (Int.negSucc m)).toList = '-' :: Nat.toDigits 10 (m + 1) := by
      rw [show toString (Int.negSucc m) = "-" ++ toString (m + 1) from rfl, String.toList_append,
        Nat.toString_eq_ofList_toDigits]
      simp
    have hall : ∀ c ∈ '-' :: Nat.toDigits 10 (m + 1), isMargin c = false :=
      forall_mem_cons.mpr ⟨by decide, fun c hc => hmargin c (hdigit _ c hc)⟩
    rw [integer?, htext, hkeep _ hall]
    simp only [natural?_toDigits]
    rw [Int.natAbs_negSucc, apply_ite (Option.map fun n => -Int.ofNat n)]
    rfl

namespace CommandLine

/-- The numbers that can be set. -/
inductive Setting where
  | indent | tempPool

namespace Setting

def key : Setting → String
  | indent => "CIRC_INDENT_WIDTH"
  | tempPool => "CIRC_TEMP_POOL_SIZE"

def option : Setting → OptionName
  | indent => .indent
  | tempPool => .tempPool

def flag : Setting → String
  | indent => "--indent"
  | tempPool => "--temp-pool"

def least : Setting → Int
  | indent => 0
  | tempPool => 1

def put (value : Option Int) (a : Arguments) : Setting → Arguments
  | indent => { a with indent := value }
  | tempPool => { a with tempPool := value }

end Setting

variable {raw : RawArguments} {s : Setting} {fs : FileSystem} {options : List (OptionName × String)} {text : String}

theorem takeApart_flag (s : Setting) (text : String) (arguments : List String) :
    takeApart (s.flag :: text :: arguments) =
      (takeApart arguments).map fun raw => { raw with options := (s.option, text) :: raw.options } := by
  have hword : s.flag ≠ "--" ∧ isOptionWord s.flag = true ∧
      readOptionWord s.flag = .ok ⟨[], some (s.option, s.flag)⟩ := by
    cases s <;> exact ⟨by decide, rfl, rfl⟩
  rw [takeApart, if_neg (by simp [hword.1]), if_neg (by simp [hword.2.1]), hword.2.2]
  rfl

theorem informationRequest?_option (s : Setting) (text : String) (options : List (OptionName × String)) :
    informationRequest? ((s.option, text) :: options) = informationRequest? options := by
  cases s <;> rfl

theorem lastValues_cons {name : OptionName} (h : name ∉ options.map Prod.fst) :
    lastValues ((name, text) :: options) = (name, text) :: lastValues options := by
  have hfirst : options.reverse.lookup name = none := by
    rw [lookup_eq_none_iff]
    intro entry hentry
    simpa using fun heq : name = entry.1 => h (heq ▸ mem_map_of_mem (mem_reverse.mp hentry))
  have hothers : (options.map Prod.fst).filter (fun other => !other == name) = options.map Prod.fst := by
    rw [filter_eq_self]
    intro other hother
    simpa using fun heq : other = name => h (heq ▸ hother)
  unfold lastValues
  rw [map_cons, eraseDups_cons, hothers, map_cons, reverse_cons, lookup_append, hfirst]
  refine congrArg₂ List.cons (by simp) (map_congr_left fun other hother => ?_)
  have hne : (other == name) = false :=
    beq_eq_false_iff_ne.mpr fun heq => h (heq ▸ mem_eraseDups.mp hother)
  simp [lookup_append, lookup_cons, hne]

theorem applyOption_put (value : Option Int) (a : Arguments) {entry : OptionName × String}
    (h : entry.1 ≠ s.option) :
    applyOption fs (s.put value a) entry = (applyOption fs a entry).map fun b => s.put value b := by
  obtain ⟨name, text⟩ := entry
  cases s <;> cases name <;>
    first
    | exact absurd rfl h
    | rfl
    | (simp only [applyOption]; split_ifs <;> rfl)
    | (simp only [applyOption]; cases readAtLeast _ _ text <;> rfl)

theorem foldlM_applyOption_put (value : Option Int) (a : Arguments) (h : s.option ∉ options.map Prod.fst) :
    options.foldlM (applyOption fs) (s.put value a) =
      (options.foldlM (applyOption fs) a).map fun b => s.put value b := by
  induction options generalizing a with
  | nil => rfl
  | cons entry options ih =>
    rw [map_cons, mem_cons, not_or] at h
    rw [foldlM_cons, foldlM_cons, applyOption_put value a (Ne.symm h.1)]
    cases applyOption fs a entry with
    | error fault => rfl
    | ok b => exact ih b h.2

/-! ### What the option changes -/

/-- The end of reading arguments, when the options have been applied. -/
def requestFor (fs : FileSystem) (others : List String) (settings : Except UsageFault Arguments) :
    Except UsageFault Request := do
  let settings ← settings
  match others with
  | [] => throw .missingInput
  | name :: surplus =>
    checkInput fs name
    if surplus.isEmpty then return .run settings else throw (.surplus surplus)

def Setting.putRequest (s : Setting) (value : Option Int) : Request → Request
  | .run a => .run (s.put value a)
  | request => request

theorem requestFor_put (value : Option Int) (others : List String) (settings : Except UsageFault Arguments) :
    requestFor fs others (settings.map fun a => s.put value a) =
      (requestFor fs others settings).map (s.putRequest value) := by
  cases settings with
  | error fault => rfl
  | ok a =>
    cases others with
    | nil => rfl
    | cons name surplus =>
      simp only [requestFor, Except.map, bind, Except.bind]
      cases checkInput fs name with
      | error fault => rfl
      | ok _ =>
        dsimp only
        split_ifs <;> rfl

theorem readArguments_eq (h : takeApart arguments = .ok raw) (hrequest : informationRequest? raw.options = none) :
    readArguments fs arguments = requestFor fs raw.others
      ((lastValues raw.options).foldlM (applyOption fs) { input := raw.others.headD "" }) := by
  rw [readArguments, h]
  simp only [hrequest, bind, Except.bind]
  rfl

theorem readArguments_flag (s : Setting) (fs : FileSystem) (text : String)
    (h : takeApart arguments = .ok raw) (hrequest : informationRequest? raw.options = none)
    (hunset : s.option ∉ raw.options.map Prod.fst) :
    ∃ result : Except UsageFault Request, readArguments fs arguments = result.map (s.putRequest none) ∧
      readArguments fs (s.flag :: text :: arguments) =
        readAtLeast s.least s.option text >>= fun n => result.map (s.putRequest (some n)) := by
  have hunset' : s.option ∉ (lastValues raw.options).map Prod.fst := by
    simpa [lastValues, mem_eraseDups] using hunset
  have hflag : takeApart (s.flag :: text :: arguments) =
      .ok { raw with options := (s.option, text) :: raw.options } := by rw [takeApart_flag, h]; rfl
  let start : Arguments := { input := raw.others.headD "" }
  refine ⟨requestFor fs raw.others ((lastValues raw.options).foldlM (applyOption fs) start), ?_, ?_⟩
  · have hnone : start = s.put none start := by cases s <;> rfl
    rw [readArguments_eq h hrequest, ← requestFor_put, ← foldlM_applyOption_put none start hunset', ← hnone]
  · have hfirst : applyOption fs start (s.option, text) =
        (readAtLeast s.least s.option text).map fun n => s.put (some n) start := by cases s <;> rfl
    rw [readArguments_eq hflag ((informationRequest?_option s text raw.options).trans hrequest),
      lastValues_cons hunset, foldlM_cons]
    change requestFor fs raw.others (applyOption fs start (s.option, text) >>= _) = _
    rw [hfirst]
    cases readAtLeast s.least s.option text with
    | error fault => rfl
    | ok n =>
      change requestFor fs raw.others ((lastValues raw.options).foldlM (applyOption fs) (s.put (some n) start)) = _
      rw [foldlM_applyOption_put (some n) start hunset', requestFor_put]
      rfl

/-! ### What the variable changes -/

/-- The numbers that the option takes: those that are not too small and not too long to be read. -/
def Setting.Takes (s : Setting) (n : Int) : Prop :=
  s.least ≤ n ∧ (Nat.toDigits 10 n.natAbs).length ≤ Numeral.digitLimit

theorem readAtLeast_toString (s : Setting) (n : Int) :
    s.Takes n ∧ readAtLeast s.least s.option (toString n) = .ok n ∨ ¬ s.Takes n ∧ ∃ fault, fault ≠ .nullInName ∧
        readAtLeast s.least s.option (toString n) = .error fault := by
  rw [readAtLeast, Numeral.integer?_toString, Setting.Takes]
  by_cases hlength : (Nat.toDigits 10 n.natAbs).length ≤ Numeral.digitLimit
  · simp only [hlength, if_true, and_true]
    by_cases hleast : s.least ≤ n
    · exact .inl ⟨hleast, if_neg (by omega)⟩
    · exact .inr ⟨hleast, _, by simp, if_pos (by omega)⟩
  · refine .inr ⟨fun h => hlength h.2, .notInteger s.option (toString n), by simp, ?_⟩
    simp only [hlength, if_false]

theorem options_of_variable (h : s.Takes n) (a : Arguments) (environment : List (String × String)) :
    (s.put none a).options ((s.key, toString n) :: environment) = (s.put (some n) a).options environment := by
  have hinteger : Numeral.integer? (toString n) = some n := by
    rw [Numeral.integer?_toString, if_pos h.2]
  generalize toString n = text at hinteger ⊢
  have hother : ∀ key key' : String, (key' == key) = false →
      ((key, text) :: environment).lookup key' = environment.lookup key' := by
    intro key key' hne
    rw [lookup_cons, hne]
  have hself : ∀ key default, Options.numberFrom ((key, text) :: environment) key default = (n, []) := by
    intro key default
    have hnone : Numeral.integer? "" = none := by decide
    have hne : ¬ text.isEmpty = true := by
      rw [String.isEmpty_iff]
      rintro rfl
      cases hinteger.symm.trans hnone
    unfold Options.numberFrom
    rw [lookup_cons_self]
    dsimp only
    rw [if_neg hne, hinteger]
  have hothers : ∀ key key' default, (key' == key) = false →
      Options.numberFrom ((key, text) :: environment) key' default =
        Options.numberFrom environment key' default := by
    intro key key' default hne
    rw [Options.numberFrom, Options.numberFrom, hother key key' hne]
  simp only [Arguments.options, Options.fromEnvironment]
  cases s with
  | indent | tempPool =>
    simp only [Setting.key]
    rw [hself, hothers _ _ _ (by decide), hother _ _ (by decide)]
    rfl

/-! ### Both runs -/

def Outcome.Same (o o' : Outcome) : Prop := o.status.code = o'.status.code ∧ o.files = o'.files

theorem compileSource_same (s : Setting) (value value' : Option Int) (a : Arguments) (options : Options)
    (input output stderr stderr' source : String) :
    (compileSource fs (s.put value a) options input output stderr source).Same
      (compileSource fs (s.put value' a) options input output stderr' source) := by
  have hput : ∀ value, (s.put value a).tokens = a.tokens ∧ (s.put value a).ast = a.ast ∧
      (s.put value a).toStdout = a.toStdout := by
    intro value
    cases s <;> exact ⟨rfl, rfl, rfl⟩
  simp only [compileSource, hput]
  by_cases htokens : a.tokens = true
  · rw [if_pos htokens, if_pos htokens]
    cases tokenize source input <;> exact ⟨rfl, rfl⟩
  · rw [if_neg htokens, if_neg htokens]
    cases (compile options source input).2 with
    | error failure => exact ⟨rfl, rfl⟩
    | ok compiled =>
      dsimp only
      split_ifs
      · exact ⟨rfl, rfl⟩
      · exact ⟨rfl, rfl⟩
      · simp only [writeResult]
        cases fs.writeText output (line compiled.output) <;> exact ⟨rfl, rfl⟩

theorem execute_same (h : s.Takes n) (a : Arguments) (environment : List (String × String)) :
    (execute fs ((s.key, toString n) :: environment) (s.put none a)).Same
      (execute fs environment (s.put (some n) a)) := by
  have hput : ∀ value, (s.put value a).source = a.source ∧ (s.put value a).target = a.target := by
    intro value
    cases s <;> exact ⟨rfl, rfl⟩
  cases hread : fs.readText a.source with
  | error failure =>
    obtain ⟨stderr, hvariable⟩ := execute_of_unread ((s.key, toString n) :: environment)
      ((hput none).1 ▸ hread : fs.readText (s.put none a).source = _)
    obtain ⟨stderr', hflag⟩ := execute_of_unread environment
      ((hput (some n)).1 ▸ hread : fs.readText (s.put (some n) a).source = _)
    rw [hvariable, hflag]
    exact ⟨rfl, rfl⟩
  | ok source =>
    obtain ⟨stderr, hvariable⟩ := execute_of_read ((s.key, toString n) :: environment)
      ((hput none).1 ▸ hread : fs.readText (s.put none a).source = _)
    obtain ⟨stderr', hflag⟩ := execute_of_read environment
      ((hput (some n)).1 ▸ hread : fs.readText (s.put (some n) a).source = _)
    rw [hvariable, hflag, options_of_variable h, (hput none).1, (hput none).2, (hput (some n)).1,
      (hput (some n)).2]
    exact compileSource_same s none (some n) a _ _ _ _ _ _

/-- Setting a number by its variable and by its option, where the other arguments do not set it, come to
the same exactly if the option takes the number, or the run by the variable ends as a bad argument too,
or the other arguments are no request that depends on settings. -/
theorem variable_same_as_option_iff (s : Setting) (n : Int) (arguments : List String)
    (environment : List (String × String)) (fs : FileSystem)
    (hunset : ∀ raw, takeApart arguments = .ok raw → s.option ∉ raw.options.map Prod.fst) :
    let byVariable := run arguments ((s.key, toString n) :: environment) fs
    let byOption := run (s.flag :: toString n :: arguments) environment fs
    byVariable.Same byOption ↔
      s.Takes n ∨ byVariable.status.code = 2 ∧ byVariable.files = fs ∨
        ∀ raw, takeApart arguments = .ok raw → informationRequest? raw.options ≠ none := by
  intro byVariable byOption
  by_cases hasks : ∀ raw, takeApart arguments = .ok raw → informationRequest? raw.options ≠ none
  · -- the settings are not looked at
    refine iff_of_true ?_ (.inr (.inr hasks))
    simp only [byVariable, byOption, run, readArguments, takeApart_flag]
    cases hraw : takeApart arguments with
    | error fault => cases fault <;> exact ⟨rfl, rfl⟩
    | ok raw =>
      obtain ⟨request, hrequest⟩ := Option.ne_none_iff_exists'.mp (hasks raw hraw)
      have hinformation : ∀ a, request ≠ .run a := by
        rintro a rfl
        obtain ⟨⟨name, text⟩, -, hname⟩ := exists_of_findSome?_eq_some hrequest
        cases name <;> cases hname
      simp only [Except.map, bind, Except.bind, informationRequest?_option, hrequest, pure, Except.pure]
      cases request with
      | run a => exact absurd rfl (hinformation a)
      | _ => exact ⟨rfl, rfl⟩
  · simp only [not_forall, not_not, exists_prop] at hasks
    obtain ⟨raw, hraw, hrequest⟩ := hasks
    obtain ⟨result, hvariable, hoption⟩ := readArguments_flag s fs (toString n) hraw hrequest
      (hunset raw hraw)
    obtain ⟨htakes, hread⟩ | ⟨htakes, fault, hfault, hread⟩ := readAtLeast_toString s n
    · refine iff_of_true ?_ (.inl htakes)
      rw [hread] at hoption
      change readArguments fs (s.flag :: toString n :: arguments) = result.map (s.putRequest (some n)) at hoption
      simp only [byVariable, byOption, run, hvariable, hoption]
      cases result with
      | error fault => cases fault <;> exact ⟨rfl, rfl⟩
      | ok request =>
        cases request with
        | run a => exact execute_same htakes a environment
        | _ => exact ⟨rfl, rfl⟩
    · rw [hread] at hoption
      change readArguments fs (s.flag :: toString n :: arguments) = .error fault at hoption
      have hbad : byOption.status.code = 2 ∧ byOption.files = fs := by
        have hrun : byOption = ⟨.invalidArguments, "", usageReport fault, fs⟩ := by
          simp only [byOption, run, hoption]
        simp [hrun, ExitStatus.code]
      have hreached : ¬ ∀ raw, takeApart arguments = .ok raw → informationRequest? raw.options ≠ none :=
        fun h => h raw hraw hrequest
      simp only [Outcome.Same, hbad, htakes, hreached, false_or, or_false]

theorem variable_same_as_option_of_three :
    (run ["m.cir"] [("CIRC_TEMP_POOL_SIZE", "3")] passFolder).Same
      (run ["--temp-pool", "3", "m.cir"] [] passFolder) := by
  have hunset : ∀ raw, takeApart ["m.cir"] = .ok raw → OptionName.tempPool ∉ raw.options.map Prod.fst := by
    intro raw hraw
    cases hraw
    exact not_mem_nil
  have htakes : Setting.tempPool.Takes 3 := ⟨by decide, by decide⟩
  exact (variable_same_as_option_iff .tempPool 3 ["m.cir"] [] passFolder hunset).mpr (.inl htakes)

/-- A pool without room breaks the run when it is asked for by the variable; the option is refused. -/
theorem empty_pool_by_variable_breaks :
    (run ["m.cir"] [("CIRC_TEMP_POOL_SIZE", "0")] passFolder).status.code = 3 ∧
      (run ["--temp-pool", "0", "m.cir"] [] passFolder).status.code = 2 := by
  refine ⟨?_, by decide +kernel⟩
  have hread : passFolder.readText (Arguments.source { input := "m.cir" }) = .ok "PASS" := by
    rw [source_of_input, readText_input]
  obtain ⟨stderr, hexecute⟩ := execute_of_read [("CIRC_TEMP_POOL_SIZE", "0")] hread
  have hsettings : Arguments.options { input := "m.cir" } [("CIRC_TEMP_POOL_SIZE", "0")] = { poolSize := 0 } := rfl
  rw [hsettings, source_of_input, target_of_input] at hexecute
  have hcode : (compileSource passFolder { input := "m.cir" } { poolSize := 0 } "m.cir" "m.c" ""
      "PASS").status.code = 3 := by decide +kernel
  rw [run, (readArguments_input _)]
  change (execute passFolder _ _).status.code = 3
  rw [hexecute]
  exact (compileSource_same .tempPool none none { input := "m.cir" } _ _ _ stderr "" _).1.trans hcode

end CommandLine

end CirOutline
