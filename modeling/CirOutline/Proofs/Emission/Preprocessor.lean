import CirOutline.Proofs.Emission.CLine

/-!
The preprocessor of C, as far as the emitted text uses it: symbols are defined and undefined, and lines
count or do not count by which symbols are defined. `CLine.directives` reads the directives from the
lines of a text, once lines that end in a backslash are joined to the next; `Preprocessor.states` are
the states that the directives lead through.
-/

namespace CirOutline

open LexicalRule CToken Text

variable {names : List String} {line word name : String} {rest : List Char}

inductive Directive where
  | define (name : String)
  | undef (name : String)
  /-- The lines up to the next `endif` count if the name is defined. -/
  | ifdef (name : String)
  /-- The lines up to the next `endif` count if none of the names is defined. -/
  | ifNone (names : List String)
  | endif
deriving DecidableEq

/-! ### Directives of a text -/

namespace CLine

/-- The names of a condition that holds if none of them is defined. -/
def undefined? : List String → Option (List String)
  | negation :: word :: opening :: name :: closing :: rest =>
    if negation == "!" && word == "defined" && opening == "(" && closing == ")" then
      match rest with
      | [] => some [name]
      | joint :: more => if joint == "&&" then (undefined? more).map (name :: ·) else none
    else none
  | _ => none

def directiveOf? (word : String) (rest : List String) : Option Directive :=
  if word == "define" then rest.head?.map .define
  else if word == "undef" then rest.head?.map .undef
  else if word == "ifdef" then rest.head?.map .ifdef
  else if word == "if" then (undefined? rest).map .ifNone
  else if word == "endif" then some .endif
  else none

def directive? (line : String) : Option Directive :=
  if (tokens line).head? == some "#" then
    (tokens line).tail.head?.bind fun word => directiveOf? word (tokens line).tail.tail
  else none

def splices (line : String) : Bool := line.toList.getLast? == some '\\'

def splice : List String → List String
  | [] => []
  | line :: rest =>
    if splices line then
      (String.ofList line.toList.dropLast ++ (splice rest).headD "") :: (splice rest).tail
    else line :: splice rest

def directives (lines : List String) : List Directive := (splice lines).filterMap directive?

theorem directive?_shift (width : Int) (line : String) : directive? (shift width line) = directive? line := by
  rw [directive?, directive?, tokens_shift]

theorem splices_shift (width : Int) (line : String) : splices (shift width line) = splices line := by
  unfold splices shift
  split_ifs with hempty
  · rfl
  · have hne : line.toList ≠ [] := by simpa using hempty
    rw [String.toList_append, List.getLast?_append_of_ne_nil _ hne]

theorem splice_eq_self {lines : List String} (h : ∀ line ∈ lines, splices line = false) :
    splice lines = lines := by
  induction lines with
  | nil => rfl
  | cons line rest ih =>
    rw [List.forall_mem_cons] at h
    rw [splice, if_neg (by simp [h.1]), ih h.2]

/-! ### Lines without a directive -/

theorem directive?_of_tokens (h : (tokens line).head? ≠ some "#") : directive? line = none := by
  rw [directive?, if_neg (by simpa using h)]

theorem directive?_of_startsWord (h : startsWord line = true) : directive? line = none := by
  apply directive?_of_tokens
  cases hline : line.toList with
  | nil => simp [startsWord, hline] at h
  | cons c rest =>
    have hc : startsName c = true := by simpa [startsWord, hline] using h
    obtain ⟨-, -, hspace, hslash⟩ := plain_of_startsIdentifier (c := c) (by simp [startsIdentifier, hc])
    obtain ⟨n, hn⟩ : ∃ n, width (c :: rest) = n + 1 := Nat.exists_eq_add_of_le' (Nat.le_max_left 1 _)
    rw [tokens, hline, lex_cons hspace (commentWidth_eq_zero hslash rest), hn, List.take_succ_cons,
      List.head?_cons, ne_eq, Option.some.injEq, ← String.toList_inj, String.toList_ofList]
    intro hsame
    obtain rfl : c = '#' := (List.cons.inj hsame).1
    exact absurd hc (by decide)

theorem directive?_of_comment (h : tokens line = []) : directive? line = none :=
  directive?_of_tokens (by rw [h]; nofun)

theorem directive?_blank : directive? "" = none := directive?_of_comment (by simp [tokens, lex])

theorem directive?_brace : directive? "\x7d" = none := by
  have htokens : tokens "\x7d" = ["\x7d"] := by
    rw [tokens, show "\x7d".toList = ['\x7d'] from rfl, lex_mark rfl, lex]
  exact directive?_of_tokens (by rw [htokens]; decide)

/-! ### Lines with a directive -/

section

variable (hword : IsWord word)
include hword

theorem tokens_directive (hline : line.toList = '#' :: (word.toList ++ rest))
    (hrest : ∀ d ∈ rest.head?, continuesIdentifier d = false) :
    tokens line = "#" :: word :: lex rest := by
  rw [tokens, hline, lex_hash, lex_word hword hrest]
  intro d hd
  obtain ⟨c, body, hchars, hc, -⟩ := hword
  rw [hchars] at hd
  obtain rfl : c = d := by simpa using hd
  rintro rfl
  exact absurd hc (by decide)

theorem directive?_of_word (hline : line.toList = '#' :: (word.toList ++ rest))
    (hrest : ∀ d ∈ rest.head?, continuesIdentifier d = false) :
    directive? line = directiveOf? word (lex rest) := by
  rw [directive?, tokens_directive hword hline hrest]
  rfl

theorem tokens_of_name (hname : IsWord name)
    (hline : line.toList = '#' :: (word.toList ++ ' ' :: (name.toList ++ rest)))
    (hrest : ∀ d ∈ rest.head?, continuesIdentifier d = false) :
    tokens line = "#" :: word :: name :: lex rest := by
  rw [tokens_directive hword hline (by rintro d ⟨⟩; decide), lex_space rfl, lex_word hname hrest]

theorem directive?_of_name (hname : IsWord name)
    (hline : line.toList = '#' :: (word.toList ++ ' ' :: (name.toList ++ rest)))
    (hrest : ∀ d ∈ rest.head?, continuesIdentifier d = false) :
    directive? line = directiveOf? word (name :: lex rest) := by
  rw [directive?, tokens_of_name hword hname hline hrest]
  rfl

end

theorem tokens_define {symbol : String} (h : IsWord symbol) :
    tokens ("#define " ++ symbol) = ["#", "define", symbol] := by
  have hline : ("#define " ++ symbol).toList = '#' :: ("define".toList ++ ' ' :: (symbol.toList ++ [])) := by
    simp
  rw [tokens_of_name (isWord_of_all rfl) h hline (by simp), lex]

theorem tokens_constant {type : String} (hname : IsWord name) (htype : IsWord type)
    (value : String) : tokens ("#define " ++ name ++ " ((" ++ type ++ ") " ++ value ++ ")") =
      "#" :: "define" :: name :: "(" :: "(" :: type :: ")" :: lex (value.toList ++ [')']) := by
  have hline : ("#define " ++ name ++ " ((" ++ type ++ ") " ++ value ++ ")").toList =
      '#' :: ("define".toList ++ ' ' :: (name.toList ++ ' ' :: '(' :: '(' ::
        (type.toList ++ ')' :: ' ' :: (value.toList ++ [')'])))) := by
    simp
  rw [tokens_of_name (isWord_of_all rfl) hname hline (by rintro d ⟨⟩; decide),
    lex_space rfl, lex_mark rfl, lex_mark rfl,
    lex_word_mark htype rfl rfl, lex_space rfl]

theorem directive?_define (h : IsWord name) {tail : String}
    (htail : ∀ d ∈ tail.toList.head?, continuesIdentifier d = false) :
    directive? ("#define " ++ name ++ tail) = some (.define name) := by
  have hword : IsWord "define" := isWord_of_all rfl
  rw [directive?_of_name hword h (by simp) htail]
  rfl

theorem directive?_undef (h : IsWord name) : directive? ("#undef " ++ name) = some (.undef name) := by
  have hword : IsWord "undef" := isWord_of_all rfl
  have hline : ("#undef " ++ name).toList = '#' :: ("undef".toList ++ ' ' :: (name.toList ++ [])) := by simp
  rw [directive?_of_name hword h hline nofun]
  rfl

theorem directive?_ifdef (h : IsWord name) : directive? ("#ifdef " ++ name) = some (.ifdef name) := by
  have hword : IsWord "ifdef" := isWord_of_all rfl
  have hline : ("#ifdef " ++ name).toList = '#' :: ("ifdef".toList ++ ' ' :: (name.toList ++ [])) := by simp
  rw [directive?_of_name hword h hline nofun]
  rfl

theorem directive?_endif : directive? "#endif" = some .endif := by
  have hword : IsWord "endif" := isWord_of_all rfl
  have hline : "#endif".toList = '#' :: ("endif".toList ++ []) := rfl
  rw [directive?_of_word hword hline nofun]
  rfl

def absence (names : List String) : String :=
  " && ".intercalate (names.map fun name => "!defined(" ++ name ++ ")")

theorem undefined?_absence (hne : names ≠ []) (h : ∀ name ∈ names, IsWord name) :
    undefined? (lex (absence names).toList) = some names := by
  have hdefined : IsWord "defined" := isWord_of_all rfl
  have hnot : ∀ rest, lex ('!' :: 'd' :: rest) = "!" :: lex ('d' :: rest) := by
    intro rest
    refine @lex_symbol '!' [] ('d' :: rest) rfl ?_
    rintro d ⟨⟩
    decide
  have htest : ∀ name, IsWord name → ∀ rest, lex (("!defined(" ++ name ++ ")").toList ++ rest) =
      "!" :: "defined" :: "(" :: name :: ")" :: lex rest := by
    intro name hname rest
    have htext : ("!defined(" ++ name ++ ")").toList ++ rest =
        '!' :: ("defined".toList ++ '(' :: (name.toList ++ ')' :: rest)) := by
      simp
    rw [htext, show "defined".toList = 'd' :: "efined".toList from rfl, List.cons_append, hnot,
      ← List.cons_append, show 'd' :: "efined".toList = "defined".toList from rfl,
      lex_word_mark hdefined rfl rfl, lex_word_mark hname rfl rfl]
  have hand : ∀ rest, lex (' ' :: '&' :: '&' :: ' ' :: rest) = "&&" :: lex rest := by
    intro rest
    rw [lex_space rfl, ← lex_space (c := ' ') rfl rest]
    refine @lex_symbol '&' ['&'] (' ' :: rest) rfl ?_
    rintro d ⟨⟩
    decide
  induction names with
  | nil => exact absurd rfl hne
  | cons name names ih =>
    rw [List.forall_mem_cons] at h
    cases names with
    | nil =>
      have htext : (absence [name]).toList = ("!defined(" ++ name ++ ")").toList ++ [] := by
        simp [absence]
      rw [htext, htest name h.1, lex]
      simp [undefined?]
    | cons other names =>
      have htext : (absence (name :: other :: names)).toList = ("!defined(" ++ name ++ ")").toList ++
          ' ' :: '&' :: '&' :: ' ' :: (absence (other :: names)).toList := by
        simp [absence, String.intercalate_cons_cons, -String.toList_intercalate]
      rw [htext, htest name h.1, hand]
      simp [undefined?, ih (List.cons_ne_nil _ _) h.2]

theorem directive?_if (hne : names ≠ []) (h : ∀ name ∈ names, IsWord name) :
    directive? ("#if " ++ absence names) = some (.ifNone names) := by
  have hword : IsWord "if" := isWord_of_all rfl
  have hline : ("#if " ++ absence names).toList = '#' :: ("if".toList ++ ' ' :: (absence names).toList) := by
    simp
  rw [directive?_of_word hword hline (by rintro d ⟨⟩; decide), lex_space rfl]
  simp [directiveOf?, undefined?_absence hne h]

end CLine

/-! ### States of the preprocessor -/

/-- What is defined, and whether the lines of each open condition count, the innermost first. -/
structure Preprocessor where
  defined : List String
  branches : List Bool

namespace Preprocessor

def counts (p : Preprocessor) : Bool := p.branches.all id

def step (p : Preprocessor) : Directive → Preprocessor
  | .define name => if p.counts then { p with defined := name :: p.defined } else p
  | .undef name => if p.counts then { p with defined := p.defined.filter (· != name) } else p
  | .ifdef name => { p with branches := p.defined.contains name :: p.branches }
  | .ifNone names => { p with branches := (names.all fun name => !p.defined.contains name) :: p.branches }
  | .endif => { p with branches := p.branches.tail }

def run (p : Preprocessor) (ds : List Directive) : Preprocessor := ds.foldl step p

def states (p : Preprocessor) : List Directive → List Preprocessor
  | [] => [p]
  | d :: ds => p :: states (p.step d) ds

theorem run_append (p : Preprocessor) (ds es : List Directive) : p.run (ds ++ es) = (p.run ds).run es :=
  List.foldl_append

theorem forall_states_append {P : Preprocessor → Prop} (ds es : List Directive) :
    ∀ p : Preprocessor, (∀ q ∈ p.states (ds ++ es), P q) ↔
      (∀ q ∈ p.states ds, P q) ∧ ∀ q ∈ (p.run ds).states es, P q := by
  induction ds with
  | nil =>
    intro p
    rw [List.nil_append, states, List.forall_mem_singleton]
    refine (and_iff_right_of_imp fun h => ?_).symm
    cases es with
    | nil => exact h p (List.mem_singleton.mpr rfl)
    | cons e es => exact h p List.mem_cons_self
  | cons d ds ih =>
    intro p
    rw [List.cons_append, states, states, List.forall_mem_cons, List.forall_mem_cons, ih, and_assoc]
    rfl

end Preprocessor

open Preprocessor List

/-- Directives on lines that count lead from what is defined to what is defined, and all that is
defined on the way has a property. -/
structure Runs (P : List String → Prop) (d : List String) (ds : List Directive) (d' : List String) :
    Prop where
  leads : ∀ branches : List Bool, branches.all id = true → run ⟨d, branches⟩ ds = ⟨d', branches⟩
  keeps : ∀ branches : List Bool, branches.all id = true →
    ∀ p ∈ states ⟨d, branches⟩ ds, P p.defined

def Skips (ds : List Directive) : Prop :=
  ∀ (d : List String) (branches : List Bool), branches.all id = false →
    run ⟨d, branches⟩ ds = ⟨d, branches⟩ ∧
      ∀ p ∈ states ⟨d, branches⟩ ds, p.defined = d

/-- On lines that count the directives lead to something that does not have a property. -/
def Breaks (P : List String → Prop) (d : List String) (ds : List Directive) : Prop :=
  ∀ branches : List Bool, branches.all id = true →
    ¬ ∀ p ∈ states ⟨d, branches⟩ ds, P p.defined

namespace Runs

variable {P : List String → Prop} {d d₁ d₂ : List String} {ds es : List Directive}

theorem last (h : Runs P d ds d₁) : P d₁ := by
  have hstates := h.keeps [] rfl
  rw [← append_nil ds, forall_states_append (P := fun p => P p.defined),
    h.leads [] rfl] at hstates
  exact hstates.2 _ (mem_singleton.mpr rfl)

theorem nil (h : P d) : Runs P d [] d :=
  ⟨fun _ _ => rfl, fun _ _ => forall_mem_singleton.mpr h⟩

theorem append (h : Runs P d ds d₁) (hmore : Runs P d₁ es d₂) : Runs P d (ds ++ es) d₂ := by
  refine ⟨fun branches hcounts => ?_, fun branches hcounts => ?_⟩
  · rw [run_append, h.leads branches hcounts, hmore.leads branches hcounts]
  · rw [forall_states_append (P := fun p => P p.defined), h.leads branches hcounts]
    exact ⟨h.keeps branches hcounts, hmore.keeps branches hcounts⟩

theorem single {directive : Directive} (hstep : ∀ branches : List Bool, branches.all id = true →
    step ⟨d, branches⟩ directive = ⟨d₁, branches⟩) (h : P d) (hnext : P d₁) : Runs P d [directive] d₁ := by
  refine ⟨hstep, fun branches hcounts => ?_⟩
  rw [states, hstep branches hcounts, forall_mem_cons]
  exact ⟨h, forall_mem_singleton.mpr hnext⟩

theorem define (h : P d) (hnext : P (name :: d)) : Runs P d [.define name] (name :: d) :=
  single (fun branches hcounts => by simp [step, counts, hcounts]) h hnext

theorem undef (h : P d) (hnext : P (d.filter (· != name))) : Runs P d [.undef name] (d.filter (· != name)) :=
  single (fun branches hcounts => by simp [step, counts, hcounts]) h hnext

theorem conditional {opening : Directive} {holds : Bool}
    (hopening : ∀ branches, step ⟨d, branches⟩ opening = ⟨d, holds :: branches⟩) (h : P d)
    (hskips : Skips ds) (hruns : holds = true → Runs P d ds d₁) (hnot : holds = false → d₁ = d) :
    Runs P d (opening :: (ds ++ [.endif])) d₁ := by
  cases holds with
  | true =>
    have hruns := hruns rfl
    have hcounts' : ∀ branches : List Bool, branches.all id = true → (true :: branches).all id = true := by
      intro branches hcounts
      simpa using hcounts
    refine ⟨fun branches hcounts => ?_, fun branches hcounts => ?_⟩
    · change run (step ⟨d, branches⟩ opening) (ds ++ [.endif]) = _
      rw [hopening, run_append, hruns.leads _ (hcounts' branches hcounts)]
      rfl
    · rw [states, forall_mem_cons, hopening,
        forall_states_append (P := fun p => P p.defined),
        hruns.leads _ (hcounts' branches hcounts)]
      refine ⟨h, hruns.keeps _ (hcounts' branches hcounts), ?_⟩
      rw [states, states, forall_mem_cons, forall_mem_singleton]
      exact ⟨hruns.last, hruns.last⟩
  | false =>
    obtain rfl := hnot rfl
    refine ⟨fun branches hcounts => ?_, fun branches hcounts => ?_⟩
    · change run (step ⟨d₁, branches⟩ opening) (ds ++ [.endif]) = _
      rw [hopening, run_append, (hskips d₁ (false :: branches) rfl).1]
      rfl
    · have hsame := hskips d₁ (false :: branches) rfl
      rw [states, forall_mem_cons, hopening,
        forall_states_append (P := fun p => P p.defined), hsame.1]
      refine ⟨h, fun p hp => (hsame.2 p hp).symm ▸ h, ?_⟩
      rw [states, states, forall_mem_cons, forall_mem_singleton]
      exact ⟨h, h⟩

end Runs

namespace Skips

variable {ds es : List Directive}

theorem nil : Skips [] := fun _ _ _ => ⟨rfl, forall_mem_singleton.mpr rfl⟩

theorem append (h : Skips ds) (hmore : Skips es) : Skips (ds ++ es) := by
  intro d branches hcounts
  rw [run_append, (h d branches hcounts).1,
    forall_states_append (P := fun p => p.defined = d), (h d branches hcounts).1]
  exact ⟨(hmore d branches hcounts).1, (h d branches hcounts).2, (hmore d branches hcounts).2⟩

theorem single {directive : Directive} (h : ∀ (d : List String) (branches : List Bool),
    branches.all id = false → step ⟨d, branches⟩ directive = ⟨d, branches⟩) :
    Skips [directive] := by
  intro d branches hcounts
  refine ⟨h d branches hcounts, ?_⟩
  rw [states, h d branches hcounts, states, forall_mem_cons,
    forall_mem_singleton]
  exact ⟨rfl, rfl⟩

theorem define (name : String) : Skips [.define name] :=
  single fun d branches hcounts => by simp [step, counts, hcounts]

theorem undef (name : String) : Skips [.undef name] :=
  single fun d branches hcounts => by simp [step, counts, hcounts]

theorem conditional {opening : Directive} (hopening : ∀ (d : List String) (branches : List Bool),
    ∃ holds, step ⟨d, branches⟩ opening = ⟨d, holds :: branches⟩) (h : Skips ds) :
    Skips (opening :: (ds ++ [.endif])) := by
  intro d branches hcounts
  obtain ⟨holds, hstep⟩ := hopening d branches
  obtain ⟨hrun, hstates⟩ := h d (holds :: branches) (by simp [all_cons, hcounts])
  refine ⟨?_, ?_⟩
  · change run (step ⟨d, branches⟩ opening) (ds ++ [.endif]) = _
    rw [hstep, run_append, hrun]
    rfl
  · rw [states, forall_mem_cons, hstep,
      forall_states_append (P := fun p => p.defined = d), hrun]
    refine ⟨rfl, hstates, ?_⟩
    rw [states, states, forall_mem_cons, forall_mem_singleton]
    exact ⟨rfl, rfl⟩

end Skips

namespace Breaks

variable {P : List String → Prop} {d d₁ : List String} {ds es : List Directive}

theorem append (h : Breaks P d ds) (es : List Directive) : Breaks P d (ds ++ es) := by
  intro branches hcounts hstates
  rw [forall_states_append (P := fun p => P p.defined)] at hstates
  exact h branches hcounts hstates.1

theorem after (h : Breaks P d₁ es) (hruns : Runs P d ds d₁) : Breaks P d (ds ++ es) := by
  intro branches hcounts hstates
  rw [forall_states_append (P := fun p => P p.defined), hruns.leads branches hcounts] at hstates
  exact h branches hcounts hstates.2

theorem define (h : ¬ P (name :: d)) : Breaks P d [.define name] := by
  intro branches hcounts hstates
  have hstep : step ⟨d, branches⟩ (.define name) = ⟨name :: d, branches⟩ := by
    simp [step, counts, hcounts]
  rw [states, hstep, forall_mem_cons] at hstates
  exact h (hstates.2 _ (mem_singleton.mpr rfl))

theorem conditional {opening : Directive}
    (hopening : ∀ branches, step ⟨d, branches⟩ opening = ⟨d, true :: branches⟩)
    (h : Breaks P d ds) : Breaks P d (opening :: (ds ++ [.endif])) := by
  intro branches hcounts hstates
  rw [states, hopening, forall_mem_cons] at hstates
  exact h.append [.endif] (true :: branches) (by simpa using hcounts) hstates.2

end Breaks

end CirOutline
