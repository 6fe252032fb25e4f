import CirOutline.Proofs.Layout.Outlined
import CirOutline.Proofs.Token.Scanning

/-!
How keywords are written. Reading a line warns of the keyword that opens it, and of the word between the
parts of a loop header, if they are not in upper case. Looking for a line warns of nothing, so the warnings
of a program are those of its lines in their order.
-/

namespace CirOutline

open List Token

variable {t u : Token} {rest words : List Token} {c c' c1 c2 : Cursor} {level floor : Nat} {done nodes : List Node}
  {reader : LineReader}

/-- The word between the two parts of the header of a loop. -/
def Keyword.separator? : Keyword → Option Keyword
  | repeatKey => some timesKey
  | forKey => some toKey
  | _ => none

/-- The words of a line, given by its ink, that have to be in upper case: the keyword that opens it and the
first word that separates the parts of its header. -/
def caseWords : List Token → List Token
  | [] => []
  | t :: rest =>
    if t.kind == .keyword then
      t :: ((t.keyword?.bind Keyword.separator?).bind fun key => rest.find? fun u => u.keyword? == some key).toList
    else []

def Token.caseWarning (t : Token) : String :=
  t.location.text ++ ": keyword '" ++ t.raw ++ "' should be written '" ++ Text.upper t.raw ++ "'"

def caseWarnings (words : List Token) : List String :=
  (words.filter fun t => t.raw != Text.upper t.raw).map caseWarning

theorem caseWarnings_append (a b : List Token) : caseWarnings (a ++ b) = caseWarnings a ++ caseWarnings b := by
  rw [caseWarnings, filter_append, map_append]
  rfl

theorem caseWords_sublist (ink : List Token) : caseWords ink <+ ink := by
  cases ink with
  | nil => exact .slnil
  | cons t rest =>
    rw [caseWords]
    split_ifs
    · refine .cons_cons t ?_
      cases hfound : (t.keyword?.bind Keyword.separator?).bind fun key =>
          rest.find? fun u => u.keyword? == some key with
      | none => exact nil_sublist rest
      | some u =>
        obtain ⟨key, -, hfound⟩ := Option.bind_eq_some_iff.mp hfound
        exact singleton_sublist.mpr (mem_of_find?_eq_some hfound)
    · exact nil_sublist _

namespace Reader

variable {α β : Type} {m : Reader α} {f : α → Reader β}

/-- If the step succeeds, its warnings are those of the words. -/
def Warns (words : List Token) (m : Reader α) (c : Cursor) : Prop :=
  Ends m c (fun _ c' => c'.journal.warnings .layout = c.journal.warnings .layout ++ caseWarnings words)
    fun _ _ => True

theorem warns_of_error {stop : Stop} (h : m c = .error stop c') : Warns words m c := .of_error h trivial

theorem Local.warns (h : Local .whole true m c) : Warns [] m c := by
  refine Ends.mono h (fun _ c' hread => ?_) fun _ _ _ => trivial
  rw [hread.1.2 rfl]
  exact (append_nil _).symm

/-- A quiet step leaves the warnings to what follows. -/
theorem Meets.warns {Q : α → Cursor → Prop} (hm : Meets .within true m c Q)
    (hf : ∀ a c', Q a c' → Warns words (f a) c') : Warns words (m >>= f) c := by
  cases h : m c with
  | error stop c1 => exact warns_of_error (bind_of_error h)
  | ok a c1 =>
    have hsame : c1.journal = c.journal := (hm.exchange.ok h).1.2 rfl
    refine Ends.bind_ok h ?_
    have hrest := hf a c1 (hm.ok h)
    rwa [Warns, hsame] at hrest

theorem checkCase_warns {f : Unit → Reader β} (t : Token) (hf : ∀ c', c'.rest = c.rest → Warns words (f ()) c') :
    Warns (t :: words) (checkCase t >>= f) c := by
  have hcheck : ∃ journal, checkCase t c = .ok () { c with journal := journal } ∧
      journal.warnings .layout = c.journal.warnings .layout ++ caseWarnings [t] := by
    unfold checkCase
    by_cases hcase : t.raw = Text.upper t.raw
    · refine ⟨c.journal, by rw [if_pos (beq_iff_eq.mpr hcase)]; rfl, ?_⟩
      simp [caseWarnings, ← hcase]
    · refine ⟨_, by rw [if_neg (by simpa using hcase)]; rfl, ?_⟩
      simp [caseWarnings, hcase, Journal.warnings, caseWarning]
  obtain ⟨journal, hok, hwarnings⟩ := hcheck
  refine Ends.bind_ok hok (Ends.mono (hf _ rfl) (fun _ c' hrest => ?_) fun _ _ _ => trivial)
  rw [hrest, hwarnings, append_assoc, ← caseWarnings_append]
  rfl

/-- The next word is checked, and nothing else. -/
theorem checkNext_warns {key : Keyword} {f : Unit → Reader β} (hc : c.rest = u :: rest) (hu : u.keyword? = some key)
    (hf : ∀ c', Local .whole true (f ()) c') : Warns [u] (next >>= fun t => checkCase t >>= f) c := by
  have hkind := kind_of_keyword? hu
  refine (next_meets hc (by simp [hkind]) (by simp [hkind])).warns ?_
  rintro _ c' ⟨rfl, -⟩
  exact checkCase_warns _ fun c' _ => (hf c').warns

/-- The header of a loop up to the word between its parts. -/
theorem takeUntil_warns {key : Keyword} {description : String} {f : List Token → Reader β}
    (hplain : PlainBreaks c.rest)
    (hf : ∀ run c' u rest, c'.rest = u :: rest → u.keyword? = some key → Warns [u] (f run) c') :
    Warns ((lineInk c.rest).find? fun u => u.keyword? == some key).toList
      (takeUntil (fun u => u.keyword? == some key) description >>= f) c := by
  refine (takeUntil_meets _ _ c).warns ?_
  rintro run c' ⟨hreads, -, hrun, u, rest, hc', hu, -⟩
  have hkind : u.kind = .keyword := kind_of_keyword? (beq_iff_eq.mp hu)
  have hnone : (ink run).find? (fun u => u.keyword? == some key) = none :=
    find?_eq_none.mpr fun t ht => by simpa using (hrun t (mem_of_mem_filter ht)).2
  rw [hreads.passes.ink hplain, hc', lineInk_cons (by simp [hkind]) (by simp [hkind]), find?_append, hnone,
    find?_cons, hu]
  exact hf run c' u rest hc' (beq_iff_eq.mp hu)

theorem openBlock_local (s : Statement) (location : Location) (body : BodyKind) (c : Cursor) :
    Local .whole true (openBlock s location body) c := (finishHeader_meets c).exchange.map _

section

variable (hc : c.rest = t :: rest) (hplain : PlainBreaks c.rest)
include hc hplain

theorem repeatLine_warns (hkey : t.keyword? = some .repeatKey) :
    Warns ((lineInk rest).find? fun u => u.keyword? == some .timesKey).toList (repeatLine t) c := by
  have hkind := kind_of_keyword? hkey
  refine (advance_meets hc hkind (by decide)).warns fun _ c1 hfirst => (skipSpaces_meets c1).warns ?_
  rintro - c2 ⟨hspaces, -⟩
  have hreads := hfirst.trans hspaces
  have hink : lineInk rest = lineInk c2.rest := by
    have hline := hreads.passes.ink hplain
    rw [hc, lineInk_cons (by simp [hkind]) (by simp [hkind])] at hline
    exact (List.cons.inj hline).2
  rw [hink]
  refine takeUntil_warns (hplain.of_suffix hreads.passes.suffix) fun count c3 u more hc3 hu => ?_
  split_ifs
  · exact warns_of_error rfl
  · exact checkNext_warns hc3 hu (openBlock_local _ _ _)

theorem forLine_warns (hkey : t.keyword? = some .forKey) :
    Warns ((lineInk rest).find? fun u => u.keyword? == some .toKey).toList (forLine t) c := by
  have hkind := kind_of_keyword? hkey
  refine (advance_meets hc hkind (by decide)).warns fun _ c1 hfirst => (expect_meets (by decide) _ c1).warns ?_
  rintro iterator c2 ⟨hword, hsecond⟩
  have hreads := hfirst.trans hsecond
  have hink : lineInk rest = iterator :: lineInk c2.rest := by
    have hline := hreads.passes.ink hplain
    rw [hc, lineInk_cons (by simp [hkind]) (by simp [hkind])] at hline
    exact (List.cons.inj hline).2
  rw [hink, find?_cons_of_neg (by simp [keyword?, keywordText?, hword])]
  refine takeUntil_warns (hplain.of_suffix hreads.passes.suffix) fun run c3 u more hc3 hu => ?_
  dsimp only
  split_ifs
  · exact warns_of_error rfl
  · refine checkNext_warns hc3 hu fun c' => (skipSpaces_local c').bind fun _ c _ =>
      (takeUntil_meets _ _ c).exchange.bind fun stop c _ => ?_
    split_ifs
    · exact failHere_local _ c
    · exact openBlock_local _ _ _ c

theorem keywordStatement_warns (level : Nat) (siblings : List Node) :
    Warns ((t.keyword?.bind Keyword.separator?).bind fun key =>
        (lineInk rest).find? fun u => u.keyword? == some key).toList
      (keywordStatement t level siblings t.keyword?) c := by
  by_cases hrepeat : t.keyword? = some .repeatKey
  · rw [hrepeat]
    exact repeatLine_warns hc hplain hrepeat
  by_cases hfor : t.keyword? = some .forKey
  · rw [hfor]
    exact forLine_warns hc hplain hfor
  have hnone : t.keyword?.bind Keyword.separator? = none := by
    cases hkey : t.keyword? with
    | none => rfl
    | some key => cases key <;> first | rfl | exact absurd hkey hrepeat | exact absurd hkey hfor
  rw [hnone]
  exact (keywordStatement_meets hc fun _ => ⟨hrepeat, hfor⟩).exchange.warns

theorem line_warns (hreader : reader ≠ .idle) (hbreak : t.kind ≠ .lineBreak) (level : Nat) (siblings : List Node) :
    Warns (caseWords (lineInk c.rest)) (line reader t level siblings) c := by
  by_cases hspaces : t.kind = .spaces
  · cases reader with
    | idle => exact absurd rfl hreader
    | statements | options => exact warns_of_error (by simp only [line, statementLine, optionLine, hspaces]; rfl)
  rw [hc, lineInk_cons hbreak hspaces, caseWords]
  by_cases hkeyword : t.kind = .keyword
  · rw [if_pos (by simp [hkeyword])]
    cases reader with
    | idle => exact absurd rfl hreader
    | statements =>
      simp only [line, statementLine, hkeyword]
      exact checkCase_warns t fun c' hc' => keywordStatement_warns (hc'.trans hc) (hc' ▸ hplain) level siblings
    | options => exact warns_of_error (by simp only [line, optionLine, hkeyword]; rfl)
  · rw [if_neg (by simpa using hkeyword)]
    exact (line_meets hreader hc true fun _ => hkeyword).exchange.warns

end

/-- A line that is taken warns of the words of its ink. -/
theorem taken_warns {line : Line} (hreader : reader ≠ .idle) (hscan : Scanned c.rest)
    (hnext : nextLine floor c = .ok (some (level, t)) c1) (hline : Reader.line reader t level done c1 = .ok line c2) :
    ∃ l, sourceLines c.rest = l :: sourceLines c2.rest ∧ c2.rest <:+ c.rest ∧
      c2.journal.warnings .layout = c.journal.warnings .layout ++ caseWarnings (caseWords (ink l)) := by
  obtain ⟨-, hsuffix, l, hlines, -, -, hink, rest, hc1⟩ := (nextLine_meets floor hscan).ok hnext
  obtain ⟨-, -, -, hjournal, hstart⟩ := Search.line hnext
  have hplain := (hscan.of_suffix hsuffix).breaks
  have hwarns := (line_warns hc1 hplain hreader (hstart level t rfl).2.1 level done).ok hline
  rw [hink, hjournal] at hwarns
  have htaken : ∃ l', sourceLines c.rest = l' :: sourceLines c2.rest ∧ c2.rest <:+ c.rest := by
    have htaken := line_taken hreader hscan hnext hline
    cases line with
    | complete nodes =>
      obtain ⟨_, _, _, l', -, -, h⟩ := htaken
      exact ⟨l', h.lines, h.suffix⟩
    | header s location comments body =>
      obtain ⟨-, -, l', h⟩ := htaken
      exact ⟨l', h.lines, h.suffix⟩
  obtain ⟨l', hlines', hsuffix'⟩ := htaken
  obtain ⟨rfl, -⟩ := List.cons.inj (hlines.symm.trans hlines')
  exact ⟨l, hlines', hsuffix', hwarns⟩

end Reader

theorem Cursor.warnings_note (c : Cursor) (text : String) :
    (c.note .debug text).journal.warnings .layout = c.journal.warnings .layout :=
  warnings_append_of_nil rfl

/-- The warnings of a block are those of its lines. -/
theorem BlockRuns.warns (h : BlockRuns reader floor done c nodes c') (hreader : reader ≠ .idle)
    (hscan : Scanned c.rest) :
    ∃ lines, sourceLines c.rest = lines ++ sourceLines c'.rest ∧
      c'.journal.warnings .layout = c.journal.warnings .layout ++
        caseWarnings (lines.flatMap fun l => caseWords (ink l)) := by
  induction h with
  | nil hnext =>
    obtain ⟨-, -, hlines, -⟩ := (Reader.nextLine_meets _ hscan).ok hnext
    obtain ⟨-, -, -, hjournal, -⟩ := Reader.Search.line hnext
    refine ⟨[], hlines.symm, ?_⟩
    rw [Cursor.leave, Cursor.warnings_note, hjournal]
    exact (append_nil _).symm
  | leaf hnext hline hrest ih =>
    obtain ⟨l, hlines, hsuffix, hwarns⟩ := Reader.taken_warns hreader hscan hnext hline
    obtain ⟨more, hmore, hwarns'⟩ := ih hreader (hscan.of_suffix hsuffix)
    refine ⟨l :: more, by rw [hlines, hmore, cons_append], ?_⟩
    rw [hwarns', hwarns, append_assoc, ← caseWarnings_append, flatMap_cons]
  | @header _ _ _ _ _ _ _ _ body _ _ _ _ _ c2 _ _ hnext hline hblock hclose hrest ih ih' =>
    obtain ⟨l, hlines, hsuffix, hwarns⟩ := Reader.taken_warns hreader hscan hnext hline
    have hscan' := hscan.of_suffix hsuffix
    obtain ⟨inner, hinner, hwarns'⟩ := ih body.reader_ne_idle hscan'
    obtain ⟨more, hmore, hwarns''⟩ :=
      ih' hreader (hscan'.of_suffix (hblock.later body.reader_ne_idle).suffix)
    have hinner : sourceLines c2.rest = _ := hinner
    rw [Cursor.enter, Cursor.warnings_note] at hwarns'
    refine ⟨l :: (inner ++ more), by rw [hlines, hinner, hmore, cons_append, append_assoc], ?_⟩
    rw [hwarns'', hwarns', hwarns, append_assoc, append_assoc, ← caseWarnings_append, ← caseWarnings_append,
      flatMap_cons, flatMap_append]

/-- A program that is read has one warning for each word that has to be in upper case and is not, in the order
of the source, and no other warning. -/
theorem layout_warnings_exact {source file : String} {lines : List String} {tokens : List Token}
    {program : Program} (htokens : tokenize source file = .ok tokens)
    (hread : readProgram tokens file lines = .ok program) :
    let words := (sourceLines tokens).flatMap fun l => caseWords (ink l)
    words <+ tokens ∧ program.journal.warnings .layout = caseWarnings words := by
  have hscan := (tokenize_tokenized htokens).scanned
  refine ⟨?_, ?_⟩
  · have hlines : ∀ ls : List SourceLine, (ls.flatMap fun l => caseWords (ink l)) <+ ls.flatten := by
      intro ls
      induction ls with
      | nil => exact .slnil
      | cons l ls ih => exact ((caseWords_sublist _).trans filter_sublist).append ih
    exact (hlines _).trans (flatten_sourceLines_sublist tokens)
  · obtain ⟨-, -, c, hblock, hend⟩ := readProgram_outlined hscan hread
    obtain ⟨ls, hlines, hwarns⟩ := (readBlock_runs hblock).warns (by simp) hscan
    rw [hend, sourceLines_nil, append_nil] at hlines
    have hlines : sourceLines tokens = ls := hlines
    rw [readProgram, readTokens, hblock] at hread
    rw [← congrArg Program.journal (Except.ok.inj hread), hlines]
    exact hwarns

/-- Keywords in the parts of a header and in an argument are not checked. -/
theorem layout_warnings_exact_of_lower_case :
    ∃ tokens program, tokenize "method m:\n repeat 2 + for times:\n  FOR i = if to else:\n   f(pass)" "f" = .ok tokens ∧
      readProgram tokens "f" [] = .ok program ∧ program.journal.warnings .layout =
        ["f:1:1: keyword 'method' should be written 'METHOD'",
          "f:2:2: keyword 'repeat' should be written 'REPEAT'",
          "f:2:17: keyword 'times' should be written 'TIMES'", "f:3:14: keyword 'to' should be written 'TO'"] := by
  obtain ⟨tokens, program, htokens, hread, hwords⟩ := exists_read
    "method m:\n repeat 2 + for times:\n  FOR i = if to else:\n   f(pass)" "f"
    (fun tokens _ => caseWarnings ((sourceLines tokens).flatMap fun l => caseWords (ink l)) =
      ["f:1:1: keyword 'method' should be written 'METHOD'",
        "f:2:2: keyword 'repeat' should be written 'REPEAT'",
        "f:2:17: keyword 'times' should be written 'TIMES'", "f:3:14: keyword 'to' should be written 'TO'"])
    (by decide +kernel)
  exact ⟨tokens, program, htokens, hread, (layout_warnings_exact htokens hread).2.trans hwords⟩

end CirOutline
