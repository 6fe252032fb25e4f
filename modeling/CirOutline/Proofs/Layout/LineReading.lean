import CirOutline.Proofs.Layout.Sequences

/-!
Reading one line. Whatever a line reader accepts, it takes exactly the line, and the statement that
it gives is written by the ink of the line, has proper parts and is allowed where it stands. One
statement for each kind of line leads to the one for all of them, `Reader.line_meets`.
-/

namespace CirOutline

open List Token Mark Statement

variable {body : BodyKind} {t : Token} {k : Keyword} {c0 c : Cursor} {rest ts : List Token} {s : Statement}
  {location : Location} {quiet : Bool}

/-- The nodes that trailing comments become; a comment line has none. -/
def Statement.remarks (s : Statement) (trailing : List Token) : List Node :=
  match s with
  | comment _ => []
  | _ => trailing.map remark

def Statement.bodyReader : Statement → LineReader
  | choose _ => .options
  | _ => .statements

def BodyKind.Suits (body : BodyKind) : Statement → Prop
  | .structType _ => ∃ name, body = .member name
  | .choose _ => body = .options
  | _ => body = .statements

/-- Between two positions lies the line of a statement. -/
structure LineRead (reader : LineReader) (level : Nat) (siblings : List Node) (s : Statement)
    (location : Location) (comments : List Node) (c c' : Cursor) : Prop where
  written : ∃ ts trailing, Finishes ts trailing s.definedTypes c c' ∧ s.Spelled ts ∧
    place? ts = some location ∧ comments = s.remarks trailing
  proper : s.Proper
  allowed : s.Allowed reader level siblings c.typeNames

/-- What a line reader gives belongs to the line between two positions. -/
def Line.Read (reader : LineReader) (level : Nat) (siblings : List Node) (c c' : Cursor) :
    Line → Prop
  | .complete nodes => ∃ s location comments, nodes = .mk s (some location) [] :: comments ∧
      s.opensBlock = false ∧ LineRead reader level siblings s location comments c c'
  | .header s location comments body => s.opensBlock = true ∧ body.Suits s ∧
      LineRead reader level siblings s location comments c c'

theorem place?_of_word (h : t.kind = .word) (rest : List Token) : place? (t :: rest) = some t.location := by
  simp [place?, keyword?, keywordText?, h]

section

variable (h : t.keyword? = some k)
include h

theorem place?_of_keyword (hk : k ≠ .mutableKey) (rest : List Token) : place? (t :: rest) = some t.location := by
  simp [place?, h, hk]

theorem kind_of_keyword? : t.kind = .keyword := by
  by_contra hne
  simp [keyword?, keywordText?, hne] at h

theorem upper_of_keyword? : Text.upper t.raw = k.spelling := by
  have hkind := kind_of_keyword? h
  simp only [keyword?, keywordText?, hkind, beq_self_eq_true, if_true, Option.bind_some, Keyword.ofSpelling?] at h
  have hfound := find?_some h
  exact (beq_iff_eq.mp hfound).symm

theorem fits_keyword : (keyword k.plain).Fits t := by
  simp [Fits, h]

end

namespace Reader

variable {reader : LineReader} {level : Nat} {siblings : List Node}

/-! ### The ends of lines -/

theorem complete_meets (hreads : Reads ts c0 c) (hspelled : s.Spelled ts)
    (hplace : place? ts = some location) (hproper : s.Proper)
    (hallowed : s.Allowed reader level siblings c0.typeNames) (hopens : s.opensBlock = false)
    (hremarks : s.remarks = fun trailing => trailing.map remark) :
    Meets .whole quiet (complete s location) c fun line c' => line.Read reader level siblings c0 c' := by
  refine (finishLine_meets c).map ?_
  rintro comments c' ⟨trailing, hfinish, rfl⟩
  have htypes : s.definedTypes = [] := by cases s <;> first | rfl | simp [opensBlock] at hopens
  refine ⟨s, location, _, rfl, hopens, ⟨ts, trailing, ?_, hspelled, hplace, ?_⟩, hproper, hallowed⟩
  · rw [htypes, ← append_nil ts]
    exact hreads.finish hfinish
  · rw [hremarks]

section

variable (hspelled : ∀ colon : Token, colon.kind = .colon → s.Spelled (ts ++ [colon]))
  (hplace : ∀ more, place? (ts ++ more) = some location) (hproper : s.Proper)
  (hallowed : s.Allowed reader level siblings c0.typeNames) (hopens : s.opensBlock = true)
  (hsuits : body.Suits s)
include hspelled hplace hproper hallowed hopens hsuits

theorem openBlock_meets (hfinish : ∀ colon trailing c', Finishes [colon] trailing [] c c' →
      Finishes (ts ++ [colon]) trailing s.definedTypes c0 c') :
    Meets .whole quiet (openBlock s location body) c fun line c' => line.Read reader level siblings c0 c' := by
  refine (finishHeader_meets c).map ?_
  rintro comments c' ⟨colon, trailing, hcolon, hline, rfl⟩
  refine ⟨hopens, hsuits, ⟨ts ++ [colon], trailing, hfinish colon trailing c' hline,
    hspelled colon hcolon, hplace [colon], ?_⟩, hproper, hallowed⟩
  cases s <;> first | rfl | simp [opensBlock] at hopens

theorem openBlock_meets_of_reads (hreads : Reads ts c0 c) (htypes : s.definedTypes = []) :
    Meets .whole quiet (openBlock s location body) c fun line c' => line.Read reader level siblings c0 c' := by
  refine openBlock_meets hspelled hplace hproper hallowed hopens hsuits fun colon trailing c' hline => ?_
  rw [htypes]
  exact hreads.finish hline

end

/-! ### Lines of one statement -/

theorem commentLine_meets (hc : c.rest = t :: rest) (hkind : t.kind = .comment) :
    Meets .whole quiet (commentLine t) c fun line c' => line.Read reader level siblings c c' := by
  refine .bind (advance_meets hc hkind (by decide)) ?_
  rintro - c1 hreads
  refine (finishLine_meets c1).map ?_
  rintro comments c' ⟨trailing, hfinish, rfl⟩
  have hplace : place? [t] = some t.location := by
    simp [place?, keyword?, keywordText?, hkind]
  exact ⟨.comment t.raw, t.location, [], rfl, rfl, ⟨[t], trailing, hreads.finish hfinish,
    ⟨false, .cons ⟨hkind, rfl⟩ .nil⟩, hplace, rfl⟩, trivial, trivial⟩

theorem declaration_meets {isMutable : Bool} (hreads : Reads ts c0 c)
    (hc : c.rest = t :: rest) (hkind : t.kind = .word) (htype : t.raw ∈ c0.typeNames)
    (hts : List.Forall₂ Fits (if isMutable then [.keyword .mutableKey] else []) ts)
    (hplace : ∀ more, place? (ts ++ t :: more) = some t.location) :
    Meets .whole quiet (declaration t isMutable) c fun line c' => line.Read .statements level siblings c0 c' := by
  refine .bind (advance_meets hc hkind (by decide)) ?_
  rintro - c1 h1
  refine .bind (expect_meets (by decide) _ c1) ?_
  rintro opening c2 ⟨hopening, h2⟩
  refine .bind (sequence_meets (readItems_tokenwise _) (readItems_meets _ true c2.rest)) ?_
  rintro names c3 ⟨⟨loose, items, close, hclose, hpass, hitems⟩, hc3⟩
  have h3 := hpass.reads hc3
  by_cases hnames : names = []
  · simp only [hnames, isEmpty_nil, if_true]
    exact failAt_meets rfl
  · have hfull : names.isEmpty = false := by simpa using hnames
    simp only [hfull, Bool.false_eq_true, if_false]
    have hall := ((hreads.trans h1).trans h2).trans h3
    refine complete_meets hall ⟨loose, ?_⟩ ?_ hnames ⟨rfl, htype⟩ rfl rfl
    · have hrest : List.Forall₂ Fits
          ([.word t.raw, .symbol .openParen] ++ (Mark.ink (Mark.items loose names) ++ [.symbol .closeParen]))
          ([t] ++ ([opening] ++ (items ++ [close]))) :=
        .cons ⟨hkind, rfl⟩ (.cons hopening (rel_append hitems (.cons hclose .nil)))
      have hmarks : Mark.ink ((Statement.declaration t.raw names isMutable).marks loose) =
          (if isMutable then [keyword .mutableKey] else []) ++
          ([.word t.raw, .symbol .openParen] ++
            (Mark.ink (Mark.items loose names) ++ [.symbol .closeParen])) := by
        cases isMutable <;> simp [Statement.marks, Mark.ink_append]
      rw [hmarks, append_assoc, append_assoc]
      exact rel_append hts hrest
    · simpa using hplace (opening :: (items ++ [close]))

section

variable (hc : c.rest = t :: rest)
include hc

theorem callLine_meets (hkind : t.kind = .word) (htype : t.raw ∉ c.typeNames) :
    Meets .whole quiet (callLine t) c fun line c' => line.Read .statements level siblings c c' := by
  refine .bind (advance_meets hc hkind (by decide)) ?_
  rintro - c1 h1
  refine .bind (expect_meets (by decide) _ c1) ?_
  rintro opening c2 ⟨hopening, h2⟩
  refine .bind (sequence_meets (readArguments_tokenwise opening) (readArguments_meets opening c2.source 0 c2.rest)) ?_
  rintro arguments c3 ⟨⟨close, hclose, hsplit, hbalanced, hline⟩, hc3⟩
  have hpass : Passes (ink arguments ++ [close]) c2.rest c3.rest := by
    rw [hsplit]
    exact (Passes.of_append arguments hline (close :: c3.rest)).trans
      (.cons (by simp [hclose]) (by simp [hclose]) c3.rest)
  have hall := (h1.trans h2).trans (hpass.reads hc3)
  refine complete_meets hall ⟨false, ?_⟩ (place?_of_word hkind _) ⟨hbalanced, hline⟩ ⟨rfl, htype⟩ rfl rfl
  have hmarks : ink ((call t.raw arguments).marks false) =
      .word t.raw :: .symbol .openParen :: (Mark.ink (Mark.run arguments) ++ [.symbol .closeParen]) := by
    simp [Statement.marks, Mark.ink_append]
  rw [hmarks]
  exact .cons ⟨hkind, rfl⟩ (.cons hopening (rel_append (fits_run arguments) (.cons hclose .nil)))

theorem assignmentLine_meets (hkind : t.kind = .word) :
    Meets .whole quiet (assignmentLine t) c fun line c' => line.Read .statements level siblings c c' := by
  refine .bind (advance_meets hc hkind (by decide)) ?_
  rintro - c1 h1
  refine .bind (expect_meets (by decide) _ c1) ?_
  rintro equals c2 ⟨hequals, h2⟩
  refine .bind (skipSpaces_meets c2) ?_
  rintro - c3 ⟨h3, rfl, hink⟩
  refine .bind (takeLine_meets c3) ?_
  rintro expression c4 ⟨h4, hsplit, hrun⟩
  cases hblank : runIsBlank expression with
  | true => exact failHere_meets rfl
  | false =>
    have hall := ((h1.trans h2).trans h3).trans h4
    rw [hsplit] at hink
    have hcaptured := captured_of_not_blank hrun hink hblank
    refine complete_meets hall ⟨false, ?_⟩ (place?_of_word hkind _) hcaptured rfl rfl rfl
    exact .cons ⟨hkind, rfl⟩ (.cons hequals (fits_run expression))

theorem wordLine_meets (hkind : t.kind = .word) :
    Meets .whole quiet (wordLine t) c fun line c' => line.Read .statements level siblings c c' := by
  refine .get (fun d hd => ?_) ?_
  · have hsecond := hd.second t rest hc (by simp [hkind])
    rw [secondInk, secondInk] at hsecond
    rw [hsecond, hd.types]
  split
  · split_ifs with hopen htype hequals
    · exact declaration_meets (Reads.refl c) hc hkind (by simpa using htype) .nil
        (fun more => place?_of_word hkind more)
    · exact callLine_meets hc hkind (by simpa using htype)
    · exact assignmentLine_meets hc hkind
    · exact failUnexpected_meets
    · exact failUnexpected_meets
  · exact failUnexpected_meets

theorem returnLine_meets (hkey : t.keyword? = some .returnKey) :
    Meets .whole quiet (returnLine t) c fun line c' => line.Read .statements level siblings c c' := by
  refine .bind (advance_meets hc (kind_of_keyword? hkey) (by decide)) ?_
  rintro - c1 h1
  refine .bind (skipSpaces_meets c1) ?_
  rintro - c2 ⟨h2, rfl, hink⟩
  refine .bind (takeLine_meets c2) ?_
  rintro expression c3 ⟨h3, hsplit, hrun⟩
  have hall := (h1.trans h2).trans h3
  rw [hsplit] at hink
  refine complete_meets hall ⟨false, ?_⟩ (place?_of_keyword hkey (by decide) _) ?_ rfl rfl rfl
  · cases expression with
    | nil => exact .cons (fits_keyword hkey) .nil
    | cons u more => exact .cons (fits_keyword hkey) (fits_run (u :: more))
  · cases expression with
    | nil => exact .inl rfl
    | cons u more => exact .inr ⟨⟨u, more, rfl, hink u rfl⟩, hrun⟩

end

/-! ### Commands -/

theorem failMalformed_meets {α : Type} {extent : Extent} (hkey : t.keyword? = some k)
    (hk : k = .setModeKey ∨ k = .defaultKey ∨ k = .defineKey) {Q : α → Cursor → Prop} :
    Meets extent quiet (failMalformed t) c Q := by
  rw [failMalformed, upper_of_keyword? hkey]
  rcases hk with rfl | rfl | rfl <;> exact failAt_meets rfl

theorem modeChoice_meets (hkey : t.keyword? = some k)
    (hk : k = .setModeKey ∨ k = .defaultKey ∨ k = .defineKey) (c : Cursor) :
    Meets .within quiet (modeChoice t) c fun choice c' => ∃ mode equals option, Reads [mode, equals, option] c c' ∧
      mode.kind = .word ∧ equals.kind = .setEquals ∧ option.kind = .word ∧
      choice = (mode.raw, option.raw) := by
  refine .bind (accept?_meets (by decide) c) ?_
  rintro (- | mode) c1 h1
  · exact failMalformed_meets hkey hk
  refine .bind (accept?_meets (by decide) c1) ?_
  rintro (- | equals) c2 h2
  · exact failMalformed_meets hkey hk
  refine .bind (accept?_meets (by decide) c2) ?_
  rintro (- | option) c3 h3
  · exact failMalformed_meets hkey hk
  refine .bind (skipSpaces_meets c3) ?_
  rintro - c4 ⟨h4, -⟩
  refine .bind (atLineEnd_meets c4) ?_
  rintro ended c5 ⟨rfl, -⟩
  cases ended with
  | false => exact failMalformed_meets hkey hk
  | true =>
    exact .pure ⟨mode, equals, option, ((h1.2.trans h2.2).trans h3.2).trans h4, h1.1, h2.1, h3.1, rfl⟩

section

variable (hc : c.rest = t :: rest)
include hc

theorem modeLine_meets {statement : String → String → Statement} (hkey : t.keyword? = some k)
    (hk : k = .defaultKey ∧ statement = .defaultMode ∨ k = .defineKey ∧ statement = .defineMode) :
    Meets .whole quiet (modeLine t statement) c fun line c' => line.Read .statements level siblings c c' := by
  have hkind := kind_of_keyword? hkey
  have hcommand : k = .setModeKey ∨ k = .defaultKey ∨ k = .defineKey := by
    rcases hk with ⟨rfl, -⟩ | ⟨rfl, -⟩ <;> simp
  refine .bind (advance_meets hc hkind (by decide)) ?_
  rintro - c1 h1
  refine .bind (modeChoice_meets hkey hcommand c1) ?_
  rintro - c2 ⟨mode, equals, option, h2, hmode, hequals, hoption, rfl⟩
  rcases hk with ⟨rfl, rfl⟩ | ⟨rfl, rfl⟩
  all_goals
    refine complete_meets (h1.trans h2) ⟨false, ?_⟩ (place?_of_keyword hkey (by decide) _) trivial
      rfl rfl rfl
    exact .cons (fits_keyword hkey) (.cons ⟨hmode, rfl⟩ (.cons hequals (.cons ⟨hoption, rfl⟩ .nil)))

theorem setModeLine_meets (hkey : t.keyword? = some .setModeKey) :
    Meets .whole quiet (setModeLine t) c fun line c' => line.Read .statements level siblings c c' := by
  refine .bind (advance_meets hc (kind_of_keyword? hkey) (by decide)) ?_
  rintro - c1 h1
  refine .bind (accept?_meets (by decide) c1) ?_
  rintro (- | mode) c2 h2
  · exact failMalformed_meets hkey (.inl rfl)
  refine .bind (accept?_meets (by decide) c2) ?_
  rintro (- | opening) c3 h3
  · exact failMalformed_meets hkey (.inl rfl)
  refine .bind (sequence_meets (readItems_tokenwise _) (readItems_meets _ true c3.rest)) ?_
  rintro options c4 ⟨⟨loose, items, close, hclose, hpass, hitems⟩, hc4⟩
  by_cases hoptions : options = []
  · simp only [hoptions, isEmpty_nil, if_true]
    exact failMalformed_meets hkey (.inl rfl)
  have hfull : options.isEmpty = false := by simpa using hoptions
  simp only [hfull, Bool.false_eq_true, if_false]
  refine .bind (skipSpaces_meets c4) ?_
  rintro - c5 ⟨h5, -⟩
  refine .bind (atLineEnd_meets c5) ?_
  rintro ended c6 ⟨rfl, -⟩
  cases ended with
  | false => exact failMalformed_meets hkey (.inl rfl)
  | true =>
    have hall := (((h1.trans h2.2).trans h3.2).trans (hpass.reads hc4)).trans h5
    rw [append_nil] at hall
    refine complete_meets hall ⟨loose, ?_⟩ (place?_of_keyword hkey (by decide) _) hoptions rfl rfl rfl
    have hmarks : ink ((setMode mode.raw options).marks loose) =
        .keyword .setModeKey :: .word mode.raw :: .symbol .openParen ::
          (Mark.ink (Mark.items loose options) ++ [.symbol .closeParen]) := by
      simp [Statement.marks, Mark.ink_append]
    rw [hmarks]
    exact .cons (fits_keyword hkey) (.cons ⟨h2.1, rfl⟩ (.cons h3.1 (rel_append hitems (.cons hclose .nil))))

theorem mutableLine_meets (hkey : t.keyword? = some .mutableKey) :
    Meets .whole quiet (mutableLine t) c fun line c' => line.Read .statements level siblings c c' := by
  refine .bind (advance_meets hc (kind_of_keyword? hkey) (by decide)) ?_
  rintro - c1 h1
  refine .bind (skipSpaces_meets c1) ?_
  rintro - c2 ⟨h2, rfl, -⟩
  cases hrest : c2.rest with
  | nil => exact failAt_meets rfl
  | cons u more =>
    refine .get (fun d hd => by rw [hd.types]) ?_
    split_ifs with htype
    · obtain ⟨hword, hmem⟩ : u.kind = .word ∧ u.raw ∈ c2.typeNames := by simpa using htype
      have hreads := h1.trans h2
      refine declaration_meets hreads hrest hword (hreads.types ▸ hmem) ?_ ?_
      · exact .cons (fits_keyword hkey) .nil
      · intro tail
        simp [place?, hkey]
    · exact failAt_meets rfl

/-! ### Headers -/

theorem structureLine_meets (hkey : t.keyword? = some .structureKey) :
    Meets .whole quiet (structureLine t) c fun line c' => line.Read .statements level siblings c c' := by
  refine .bind (advance_meets hc (kind_of_keyword? hkey) (by decide)) ?_
  rintro - c1 h1
  refine .bind (expect_meets (by decide) _ c1) ?_
  rintro name c2 ⟨hname, h2⟩
  have hreads := h1.trans h2
  refine .bind (Q := fun _ d => d = { c2 with typeNames := c2.typeNames ++ [name.raw] })
    ⟨.modify rfl, local_modify .rfl fun _ _ => rfl⟩ ?_
  rintro - _ rfl
  refine openBlock_meets ?_ ?_ trivial rfl rfl ⟨_, rfl⟩ fun colon trailing c' hline => by
    have htyped : Finishes [colon] trailing [name.raw] c2 c' :=
      ⟨hline.run, hline.suffix, hline.length, hline.ink, hline.after, hline.remarks, hline.level, hline.unit,
        by rw [hline.types, append_nil]⟩
    exact hreads.finish htyped
  · intro colon hcolon
    exact ⟨false, .cons (fits_keyword hkey) (.cons ⟨hname, rfl⟩ (.cons hcolon .nil))⟩
  · intro more
    exact place?_of_keyword hkey (by decide) _

end

theorem methodParameters_meets (c : Cursor) :
    Meets .within quiet methodParameters c fun ps c' =>
      (∀ p ∈ ps, p.Proper) ∧ ∃ loose ts, Reads ts c c' ∧ List.Forall₂ Fits (ink (if loose && ps.isEmpty then []
          else .symbol .openParen :: parameters ps ++ [.symbol .closeParen])) ts := by
  refine .bind (accept?_meets (by decide) c) ?_
  rintro (- | opening) c1 h1
  · exact .pure ⟨by simp, true, [], h1, .nil⟩
  refine (sequence_meets (readParameters_tokenwise opening)
    (readParameters_meets opening (.typeName true) trivial c1.rest)).weaken ?_
  rintro ps c2 ⟨⟨hproper, marks, ts, close, hmarks, hclose, hpass, hfits⟩, hc2⟩
  have hwritten : marks = parameters ps := by cases hmarks <;> rfl
  refine ⟨hproper, false, [opening] ++ (ts ++ [close]), h1.2.trans (hpass.reads hc2), ?_⟩
  have hmarks' : Mark.ink (if false && ps.isEmpty then []
      else .symbol .openParen :: Mark.parameters ps ++ [.symbol .closeParen]) =
      .symbol .openParen :: (Mark.ink marks ++ [.symbol .closeParen]) := by
    simp [Mark.ink_append, hwritten]
  rw [hmarks']
  exact .cons h1.1 (rel_append hfits (.cons hclose .nil))

theorem methodResult_meets (c : Cursor) :
    Meets .within quiet methodResult c fun returnType c' =>
      ∃ ts, Reads ts c c' ∧ List.Forall₂ Fits (ink (result returnType)) ts := by
  refine .bind (accept?_meets (by decide) c) ?_
  rintro (- | arrow) c1 h1
  · exact .pure ⟨[], h1, .nil⟩
  refine .bind (expect_meets (by decide) _ c1) ?_
  rintro type c2 ⟨htype, h2⟩
  exact .pure ⟨[arrow] ++ [type], h1.2.trans h2, .cons h1.1 (.cons ⟨htype, rfl⟩ .nil)⟩

theorem methodLine_meets (hc : c.rest = t :: rest) (hkey : t.keyword? = some .methodKey) :
    Meets .whole quiet (methodLine t level) c fun line c' => line.Read .statements level siblings c c' := by
  refine .bind (advance_meets hc (kind_of_keyword? hkey) (by decide)) ?_
  rintro - c1 h1
  by_cases hlevel : level = 0
  swap
  · have hdeep : (level != 0) = true := by simpa using hlevel
    simp only [hdeep, if_true]
    exact failAt_meets rfl
  have htop : (level != 0) = false := by simpa using hlevel
  simp only [htop, Bool.false_eq_true, if_false]
  refine .bind (expect_meets (by decide) _ c1) ?_
  rintro name c2 ⟨hname, h2⟩
  refine .bind (methodParameters_meets c2) ?_
  rintro ps c3 ⟨hproper, loose, list, h3, hlist⟩
  refine .bind (methodResult_meets c3) ?_
  rintro returnType c4 ⟨result, h4, hresult⟩
  have hall := ((h1.trans h2).trans h3).trans h4
  refine openBlock_meets_of_reads ?_ ?_ hproper ⟨rfl, hlevel⟩ rfl rfl hall rfl
  · intro colon hcolon
    have hmarks : ink ((method name.raw ps returnType).marks loose) =
        [.keyword .methodKey] ++ [.word name.raw] ++ Mark.ink (if loose && ps.isEmpty then []
            else .symbol .openParen :: Mark.parameters ps ++ [.symbol .closeParen]) ++
          Mark.ink (Mark.result returnType) ++ [.symbol .colon] := by
      simp [Statement.marks, Mark.ink_append]
    refine ⟨loose, ?_⟩
    rw [hmarks]
    have hhead : List.Forall₂ Fits [.keyword .methodKey, .word name.raw] [t, name] :=
      .cons (fits_keyword hkey) (.cons ⟨hname, rfl⟩ .nil)
    exact rel_append (rel_append (rel_append hhead hlist) hresult) (.cons hcolon .nil)
  · intro more
    exact place?_of_keyword hkey (by decide) _

theorem condition_meets (c : Cursor) :
    Meets .within quiet condition c fun run c' =>
      Reads (ink run) c c' ∧ Captured (fun t => t.kind == .colon) run := by
  refine .bind (skipSpaces_meets c) ?_
  rintro - c1 ⟨h1, rfl, hink⟩
  refine .bind (takeUntil_meets _ _ c1) ?_
  rintro run c2 ⟨h2, hsplit, hrun, -⟩
  cases hblank : runIsBlank run with
  | true => exact failHere_meets rfl
  | false =>
    rw [hsplit] at hink
    exact .pure ⟨h1.trans h2, captured_of_not_blank hrun hink hblank⟩

inductive Conditional : Keyword → (List Token → Statement) → Prop
  | ifThen : Conditional .ifKey .ifThen
  | elseIf : Conditional .elseIfKey .elseIf
  | whileLoop : Conditional .whileKey .whileLoop

section

variable (hc : c.rest = t :: rest)
include hc

theorem conditionLine_meets {statement : List Token → Statement}
    (hkey : t.keyword? = some k) (hstatement : Conditional k.plain statement)
    (hallowed : ∀ run, (statement run).Allowed .statements level siblings c.typeNames) :
    Meets .whole quiet (conditionLine t statement) c fun line c' => line.Read .statements level siblings c c' := by
  have hkind := kind_of_keyword? hkey
  have hplace : ∀ more, place? (t :: more) = some t.location := fun more =>
    place?_of_keyword hkey (by rintro rfl; cases hstatement) more
  have hfits := fits_keyword hkey
  refine .bind (advance_meets hc hkind (by decide)) ?_
  rintro - c1 h1
  refine .bind (condition_meets c1) ?_
  rintro run c2 ⟨h2, hcaptured⟩
  have hwritten : ∀ colon : Token, colon.kind = .colon → List.Forall₂ Fits
      (.keyword k.plain :: (Mark.ink (Mark.run run) ++ [.symbol .colon]))
      ([t] ++ ink run ++ [colon]) := fun colon hcolon =>
    .cons hfits (rel_append (Mark.fits_run run) (.cons hcolon .nil))
  have hall := h1.trans h2
  generalize hplain : k.plain = plain at hstatement hwritten
  cases hstatement with
  | ifThen | elseIf | whileLoop =>
    refine openBlock_meets_of_reads (fun colon hcolon => ⟨false, ?_⟩)
      (fun more => hplace _) hcaptured (hallowed run) rfl rfl hall rfl
    simpa [Statement.marks, Mark.ink_append] using hwritten colon hcolon

theorem elseLine_meets (hkey : t.keyword? = some .elseKey) (hbranch : branchMayFollow siblings = true) :
    Meets .whole quiet (elseLine t) c fun line c' => line.Read .statements level siblings c c' := by
  refine .bind (advance_meets hc (kind_of_keyword? hkey) (by decide)) ?_
  rintro - c1 h1
  refine openBlock_meets_of_reads (fun colon hcolon => ⟨false, ?_⟩)
    (fun more => place?_of_keyword hkey (by decide) _) trivial ⟨rfl, hbranch⟩ rfl rfl h1 rfl
  exact .cons (fits_keyword hkey) (.cons hcolon .nil)

theorem checkNext_meets (hkey : t.keyword? = some k) :
    Meets .within false (do checkCase (← next)) c fun _ c' => Reads [t] c c' := by
  have hkind := kind_of_keyword? hkey
  refine .bind (next_meets hc (by simp [hkind]) (by simp [hkind])) ?_
  rintro u c1 ⟨rfl, -, h1⟩
  refine (checkCase_meets u c1).weaken ?_
  rintro - c2 ⟨-, h2⟩
  have hall := h1.trans h2
  rwa [append_nil] at hall

theorem repeatLine_meets (hkey : t.keyword? = some .repeatKey) :
    Meets .whole false (repeatLine t) c fun line c' => line.Read .statements level siblings c c' := by
  refine .bind (advance_meets hc (kind_of_keyword? hkey) (by decide)) ?_
  rintro - c1 h1
  refine .bind (skipSpaces_meets c1) ?_
  rintro - c2 ⟨h2, rfl, hink⟩
  refine .bind (takeUntil_meets _ _ c2) ?_
  rintro count c3 ⟨h3, hsplit, hrun, times, after, hc3, htimes, -⟩
  cases hblank : runIsBlank count with
  | true => exact failHere_meets rfl
  | false =>
    have htimes : times.keyword? = some .timesKey := by simpa using htimes
    rw [hsplit] at hink
    have hcaptured := captured_of_not_blank hrun hink hblank
    simp only [Bool.false_eq_true, if_false]
    rw [← bind_assoc]
    refine .bind (checkNext_meets hc3 htimes) ?_
    rintro - c4 h4
    refine openBlock_meets_of_reads
      (fun colon hcolon => ⟨false, ?_⟩) (fun more => place?_of_keyword hkey (by decide) _)
      hcaptured rfl rfl rfl (((h1.trans h2).trans h3).trans h4) rfl
    have hmarks : ink ((repeatLoop count).marks false) =
        [.keyword .repeatKey] ++ ink (run count) ++ [.keyword .timesKey] ++
          [.symbol .colon] := by
      simp [Statement.marks, Mark.ink_append]
    rw [hmarks]
    have hhead : List.Forall₂ Fits [.keyword .repeatKey] ([t] ++ []) :=
      .cons (fits_keyword hkey) .nil
    have hcount := rel_append hhead (fits_run count)
    exact rel_append (rel_append hcount (.cons (fits_keyword htimes) .nil)) (.cons hcolon .nil)

theorem forLine_meets (hkey : t.keyword? = some .forKey) :
    Meets .whole false (forLine t) c fun line c' => line.Read .statements level siblings c c' := by
  refine .bind (advance_meets hc (kind_of_keyword? hkey) (by decide)) ?_
  rintro - c1 h1
  refine .bind (expect_meets (by decide) _ c1) ?_
  rintro iterator c2 ⟨hiterator, h2⟩
  refine .bind (takeUntil_meets _ _ c2) ?_
  rintro run c3 ⟨h3, -, hrun, upTo, after, hc3, hto, -⟩
  cases hstarts : startsLoop (iterator :: run) with
  | false =>
    simp only [hstarts, Bool.not_false, if_true]
    exact failAt_meets rfl
  | true =>
    have hto : upTo.keyword? = some .toKey := by simpa using hto
    have hstart : Captured (fun t => t.keyword? == some .toKey) (iterator :: run) := by
      refine ⟨⟨iterator, run, rfl, by simp [hiterator]⟩, fun u hu => ?_⟩
      rcases mem_cons.mp hu with rfl | hu
      · simp [endsLine, keyword?, keywordText?, hiterator]
      · exact hrun u hu
    simp only [hstarts, Bool.not_true, Bool.false_eq_true, if_false]
    rw [← bind_assoc]
    refine .bind (checkNext_meets hc3 hto) ?_
    rintro - c4 h4
    refine .bind (skipSpaces_meets c4) ?_
    rintro - c5 ⟨h5, rfl, hink⟩
    refine .bind (takeUntil_meets _ _ c5) ?_
    rintro stop c6 ⟨h6, hsplit, hstop, -⟩
    cases hblank : runIsBlank stop with
    | true => exact failHere_meets rfl
    | false =>
      rw [hsplit] at hink
      have hcaptured := captured_of_not_blank hstop hink hblank
      have hall := ((((h1.trans h2).trans h3).trans h4).trans h5).trans h6
      refine openBlock_meets_of_reads (fun colon hcolon => ⟨false, ?_⟩)
        (fun more => ?_) ⟨⟨iterator, run, rfl, hiterator⟩, hstarts, hstart, hcaptured⟩ rfl rfl rfl hall rfl
      · have hmarks : Mark.ink ((Statement.forLoop (iterator :: run) stop).marks false) =
            [.keyword .forKey] ++ [.copy iterator] ++ Mark.ink (Mark.run run) ++ [.keyword .toKey] ++
              [] ++ Mark.ink (Mark.run stop) ++ [.symbol .colon] := by
          have hcopy : Mark.ink (Mark.run (iterator :: run)) = .copy iterator :: Mark.ink (Mark.run run) :=
            Mark.ink_cons (by simp [Mark.isGap, hiterator]) _
          simp [Statement.marks, Mark.ink_append, hcopy]
        rw [hmarks]
        have hhead : List.Forall₂ Mark.Fits [.keyword .forKey, .copy iterator] [t, iterator] :=
          .cons (fits_keyword hkey) (.cons (fits_copy iterator) .nil)
        have hto := rel_append (rel_append hhead (fits_run run)) (.cons (fits_keyword hto) .nil)
        exact rel_append (rel_append (rel_append hto .nil) (fits_run stop)) (.cons hcolon .nil)
      · exact place?_of_keyword hkey (by decide) _

theorem chooseLine_meets (hkey : t.keyword? = some .chooseKey) :
    Meets .whole quiet (chooseLine t) c fun line c' => line.Read .statements level siblings c c' := by
  refine .bind (advance_meets hc (kind_of_keyword? hkey) (by decide)) ?_
  rintro - c1 h1
  refine .bind (expect_meets (by decide) _ c1) ?_
  rintro mode c2 ⟨hmode, h2⟩
  refine openBlock_meets_of_reads (fun colon hcolon => ⟨false, ?_⟩)
    (fun more => place?_of_keyword hkey (by decide) _) trivial rfl rfl rfl (h1.trans h2) rfl
  exact .cons (fits_keyword hkey) (.cons ⟨hmode, rfl⟩ (.cons hcolon .nil))

end

/-! ### All lines -/

theorem checkBranch_meets (c : Cursor) :
    Meets .within quiet (checkBranch t siblings) c fun _ c' => c' = c ∧ branchMayFollow siblings = true := by
  rw [checkBranch]
  split_ifs with hbranch
  · exact .pure ⟨rfl, hbranch⟩
  · exact failAt_meets rfl

theorem passLine_meets (hc : c.rest = t :: rest) (hkey : t.keyword? = some .passKey) :
    Meets .whole quiet (do advance; complete .pass t.location) c fun line c' =>
      line.Read .statements level siblings c c' := by
  refine .bind (advance_meets hc (kind_of_keyword? hkey) (by decide)) ?_
  rintro - c1 h1
  exact complete_meets h1 ⟨false, .cons (fits_keyword hkey) .nil⟩ (place?_of_keyword hkey (by decide) _)
    trivial rfl rfl rfl

theorem read_of_reads {line : Line} {c1 c' : Cursor} (hreads : Reads [] c c1)
    (h : line.Read reader level siblings c1 c') : line.Read reader level siblings c c' := by
  have hline : ∀ {s location comments}, LineRead reader level siblings s location comments c1 c' →
      LineRead reader level siblings s location comments c c' := by
    rintro s location comments ⟨⟨ts, trailing, hfinish, hrest⟩, hproper, hallowed⟩
    exact ⟨⟨ts, trailing, hreads.finish hfinish, hrest⟩, hproper, hreads.types ▸ hallowed⟩
  cases line with
  | complete nodes =>
    obtain ⟨s, location, comments, hnodes, hopens, hread⟩ := h
    exact ⟨s, location, comments, hnodes, hopens, hline hread⟩
  | header s location comments body =>
    obtain ⟨hopens, hsuits, hread⟩ := h
    exact ⟨hopens, hsuits, hline hread⟩

section

variable (hc : c.rest = t :: rest)
include hc

theorem keywordStatement_meets
    (hquiet : quiet = true → t.keyword? ≠ some .repeatKey ∧ t.keyword? ≠ some .forKey) :
    Meets .whole quiet (keywordStatement t level siblings t.keyword?) c fun line c' =>
      line.Read .statements level siblings c c' := by
  cases hkey : t.keyword? with
  | none => exact failUnexpected_meets
  | some k =>
    -- a further branch, in any of its spellings
    have hbranch : Conditional k.plain .elseIf →
        Meets .whole quiet (do checkBranch t siblings; conditionLine t .elseIf) c fun line c' =>
          line.Read .statements level siblings c c' := by
      intro hplain
      refine .bind (checkBranch_meets c) ?_
      rintro - c2 ⟨rfl, hbranch⟩
      exact conditionLine_meets hc hkey hplain fun run => ⟨rfl, hbranch⟩
    cases k with
    | structureKey => exact structureLine_meets hc hkey
    | methodKey => exact methodLine_meets hc hkey
    | passKey => exact passLine_meets hc hkey
    | defaultKey => exact modeLine_meets hc hkey (.inl ⟨rfl, rfl⟩)
    | defineKey => exact modeLine_meets hc hkey (.inr ⟨rfl, rfl⟩)
    | setModeKey => exact setModeLine_meets hc hkey
    | mutableKey => exact mutableLine_meets hc hkey
    | repeatKey =>
      obtain rfl : quiet = false := Bool.eq_false_iff.mpr fun h => (hquiet h).1 hkey
      exact repeatLine_meets hc hkey
    | ifKey => exact conditionLine_meets hc hkey .ifThen fun run => rfl
    | elseIfKey | elsIfKey | elIfKey => exact hbranch .elseIf
    | elseKey =>
      refine .bind (checkBranch_meets c) ?_
      rintro - c2 ⟨rfl, hfollows⟩
      exact elseLine_meets hc hkey hfollows
    | whileKey => exact conditionLine_meets hc hkey .whileLoop fun run => rfl
    | forKey =>
      obtain rfl : quiet = false := Bool.eq_false_iff.mpr fun h => (hquiet h).2 hkey
      exact forLine_meets hc hkey
    | chooseKey => exact chooseLine_meets hc hkey
    | returnKey => exact returnLine_meets hc hkey
    | timesKey | toKey => exact failUnexpected_meets

theorem keywordLine_meets :
    Meets .whole false (keywordLine t level siblings) c fun line c' => line.Read .statements level siblings c c' := by
  refine .bind (checkCase_meets t c) ?_
  rintro - c1 ⟨hc1, h1⟩
  refine (keywordStatement_meets (hc1.trans hc) ?_).weaken fun line c' h => read_of_reads h1 h
  exact nofun

theorem statementLine_meets (hquiet : quiet = true → t.kind ≠ .keyword) :
    Meets .whole quiet (statementLine t level siblings) c fun line c' =>
      line.Read .statements level siblings c c' := by
  rw [statementLine]
  split
  case h_1 hkind => exact commentLine_meets hc hkind
  case h_2 hkind =>
    obtain rfl : quiet = false := Bool.eq_false_iff.mpr fun h => hquiet h hkind
    exact keywordLine_meets hc
  case h_3 hkind => exact wordLine_meets hc hkind
  case h_4 => exact failUnexpected_meets

theorem optionLine_meets :
    Meets .whole quiet (optionLine t) c fun line c' => line.Read .options level siblings c c' := by
  rw [optionLine]
  split
  case h_1 hkind => exact commentLine_meets hc hkind
  case h_2 hkind =>
    refine .bind (advance_meets hc hkind (by decide)) ?_
    rintro - c1 h1
    refine openBlock_meets_of_reads (fun colon hcolon => ⟨false, ?_⟩)
      (fun more => place?_of_word hkind _) trivial rfl rfl rfl h1 rfl
    exact .cons ⟨hkind, rfl⟩ (.cons hcolon .nil)
  case h_3 => exact failUnexpected_meets

end

theorem line_meets (hreader : reader ≠ .idle) (hc : c.rest = t :: rest) (quiet : Bool)
    (hquiet : quiet = true → t.kind ≠ .keyword) :
    Meets .whole quiet (line reader t level siblings) c fun read c' => read.Read reader level siblings c c' := by
  cases reader with
  | statements => exact statementLine_meets hc hquiet
  | options => exact optionLine_meets hc
  | idle => exact absurd rfl hreader

end Reader

end CirOutline
