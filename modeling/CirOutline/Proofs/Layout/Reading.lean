import CirOutline.Proofs.Layout.Locality
import CirOutline.Proofs.Layout.Spelling

/-!
What the steps of the layout reader take off the line. `Reads ts c c'` says that between two
positions lies the ink `ts` and no line break, and `Finishes` that the line is over. Each step has
one statement, which covers its result and its faults: every fault of a step is one of layout, of
grammar or of an unsupported feature.

A bracket is known by its text alone, so the statements about lines suppose that no line break is
written like one (`PlainBreaks`), as is the case for the tokens of a text.
-/

namespace CirOutline

open List Token

variable {c' c1 c2 c3 c : Cursor} {fault : Fault} {kind : TokenKind} {a b trailing rest : List Token}
  {t : Token} {α β : Type} {Q Q' : α → Cursor → Prop} {R : β → Cursor → Prop} {extent : Extent} {quiet : Bool}

def Fault.isReading : Fault → Bool
  | improperIndentation .. | unexpectedToken .. | missingToken _ | malformedCommand .. | runaway _
  | danglingElse _ | nestedMethod | unsupported .. => true
  | _ => false

/-- A stop with one of the causes that the layout reader reports. -/
def Stop.IsReading : Stop → Prop
  | .diagnosed p => p.fault.isReading = true
  | .broken _ => False

def PlainBreaks (tokens : List Token) : Prop := ∀ t ∈ tokens, t.kind = .lineBreak → t.raw ≠ "["

theorem PlainBreaks.of_suffix (h : PlainBreaks b) (hab : a <:+ b) :
    PlainBreaks a := fun t ht => h t (hab.subset ht)

/-- From `before` to `after` the ink `ts` is passed, within one line. -/
structure Passes (ts before after : List Token) : Prop where
  run : ∃ run, before = run ++ after ∧ ink run = ts
  suffix : after <:+ before
  length : after.length + ts.length ≤ before.length
  ink : PlainBreaks before → lineInk before = ts ++ lineInk after
  sameLine : PlainBreaks before → afterLine after = afterLine before

namespace Passes

theorem refl (tokens : List Token) : Passes [] tokens tokens where
  run := ⟨[], rfl, rfl⟩
  suffix := suffix_rfl
  length := Nat.le_refl _
  ink := fun _ => rfl
  sameLine := fun _ => rfl

theorem trans {x y z : List Token} (hxy : Passes a x y) (hyz : Passes b y z) : Passes (a ++ b) x z where
  run := by
    obtain ⟨first, hx, ha⟩ := hxy.run
    obtain ⟨second, hy, hb⟩ := hyz.run
    refine ⟨first ++ second, ?_, ?_⟩
    · rw [hx, hy, append_assoc]
    · rw [Token.ink, filter_append, ← ha, ← hb]
      rfl
  suffix := hyz.suffix.trans hxy.suffix
  length := by
    have h1 := hxy.length
    have h2 := hyz.length
    rw [length_append]
    omega
  ink := fun h => by
    rw [hxy.ink h, hyz.ink (h.of_suffix hxy.suffix), append_assoc]
  sameLine := fun h => (hyz.sameLine (h.of_suffix hxy.suffix)).trans (hxy.sameLine h)

theorem of_append (run : List Token) (h : ∀ t ∈ run, t.kind ≠ .lineBreak) (rest : List Token) :
    Passes (Token.ink run) (run ++ rest) rest where
  run := ⟨run, rfl, rfl⟩
  suffix := suffix_append run rest
  length := by
    have hlen : (Token.ink run).length ≤ run.length := length_filter_le _ _
    rw [length_append]
    omega
  ink := fun _ => lineInk_append h rest
  sameLine := fun _ => (afterLine_append h rest).symm

theorem cons (h : t.kind ≠ .lineBreak) (hink : t.kind ≠ .spaces) (rest : List Token) :
    Passes [t] (t :: rest) rest := by
  have hpass := of_append [t] (by simpa using h) rest
  rwa [ink_cons hink, ink_nil] at hpass

theorem spaces (h : t.kind = .spaces) (rest : List Token) : Passes [] (t :: rest) rest := by
  have hpass := of_append [t] (by simp [h]) rest
  rwa [ink_cons_of_spaces h, ink_nil] at hpass

theorem bracket (h : t.raw = "[") (hink : t.kind ≠ .spaces) (rest : List Token) : Passes [t] (t :: rest) rest where
  run := ⟨[t], rfl, by rw [ink_cons hink, ink_nil]⟩
  suffix := suffix_cons t rest
  length := by simp
  ink := fun hplain => by
    have hbreak : t.kind ≠ .lineBreak := fun hkind => hplain t (by simp) hkind h
    rw [lineInk_cons hbreak hink, singleton_append]
  sameLine := fun hplain => by
    have hbreak : t.kind ≠ .lineBreak := fun hkind => hplain t (by simp) hkind h
    rw [afterLine_cons hbreak]

end Passes

/-- From `c` to `c'` the ink `ts` is read within one line, and nothing else changes but the
journal. -/
structure Reads (ts : List Token) (c c' : Cursor) : Prop where
  passes : Passes ts c.rest c'.rest
  level : c'.level = c.level
  unit : c'.unit = c.unit
  types : c'.typeNames = c.typeNames

theorem Reads.refl (c : Cursor) : Reads [] c c := ⟨.refl _, rfl, rfl, rfl⟩

theorem Reads.trans (h1 : Reads a c1 c2) (h2 : Reads b c2 c3) : Reads (a ++ b) c1 c3 :=
  ⟨h1.passes.trans h2.passes, h2.level.trans h1.level, h2.unit.trans h1.unit, h2.types.trans h1.types⟩

/-- From `c` to `c'` the rest of the line is read: the ink `ts`, then the comments `trailing`. The
names `types` become types. -/
structure Finishes (ts trailing : List Token) (types : List String) (c c' : Cursor) : Prop where
  run : ∃ run, run <+: c.rest ∧ ink run = ts ++ trailing
  suffix : c'.rest <:+ c.rest
  length : c'.rest.length + ts.length ≤ c.rest.length
  ink : PlainBreaks c.rest → lineInk c.rest = ts ++ trailing
  after : PlainBreaks c.rest → c'.rest = afterLine c.rest
  remarks : ∀ t ∈ trailing, t.kind = .comment
  level : c'.level = c.level
  unit : c'.unit = c.unit
  types : c'.typeNames = c.typeNames ++ types

theorem Reads.finish {types : List String} (h1 : Reads a c1 c2) (h2 : Finishes b trailing types c2 c3) :
    Finishes (a ++ b) trailing types c1 c3 where
  run := by
    obtain ⟨first, hc1, ha⟩ := h1.passes.run
    obtain ⟨second, hc2, hb⟩ := h2.run
    refine ⟨first ++ second, ?_, ?_⟩
    · rw [hc1]
      exact (prefix_append_right_inj first).mpr hc2
    · rw [append_assoc, ← ha, ← hb]
      exact filter_append first second
  suffix := h2.suffix.trans h1.passes.suffix
  length := by
    have hfirst := h1.passes.length
    have hsecond := h2.length
    rw [length_append]
    omega
  ink := fun h => by
    rw [h1.passes.ink h, h2.ink (h.of_suffix h1.passes.suffix), append_assoc]
  after := fun h => by
    rw [h2.after (h.of_suffix h1.passes.suffix), h1.passes.sameLine h]
  remarks := h2.remarks
  level := h2.level.trans h1.level
  unit := h2.unit.trans h1.unit
  types := by rw [h2.types, h1.types]

def Token.remark (t : Token) : Node := .mk (.comment t.raw) (some t.location) []

namespace Reader

/-- The step gives a value with `Q`, or stops with a cause that the layout reader reports. -/
abbrev Reports (m : Reader α) (c : Cursor) (Q : α → Cursor → Prop) : Prop := Ends m c Q fun stop _ => stop.IsReading

/-- That, and neither depends on later tokens or on the source. -/
structure Meets (extent : Extent) (quiet : Bool) (m : Reader α) (c : Cursor) (Q : α → Cursor → Prop) : Prop where
  ends : Reports m c Q
  exchange : Local extent quiet m c

namespace Meets

variable {m : Reader α} {f : α → Reader β}

theorem ok {a : α} (h : Meets extent quiet m c Q) (hm : m c = .ok a c') : Q a c' := h.ends.ok hm

theorem weaken (h : Meets extent quiet m c Q) (hq : ∀ a c', Q a c' → Q' a c') : Meets extent quiet m c Q' :=
  ⟨h.ends.weaken hq, h.exchange⟩

theorem bind (hm : Meets .within quiet m c Q) (hf : ∀ a c', Q a c' → Meets extent quiet (f a) c' R) :
    Meets extent quiet (m >>= f) c R :=
  ⟨hm.ends.bind fun a c' hq => (hf a c' hq).ends,
    hm.exchange.bind fun a c' h => (hf a c' (hm.ok h)).exchange⟩

theorem pure {a : α} (h : Q a c) : Meets .within quiet (Pure.pure a) c Q := ⟨.pure h, local_pure a⟩

theorem map (hm : Meets .whole quiet m c Q) {g : α → β} (hg : ∀ a c', Q a c' → R (g a) c') :
    Meets .whole quiet (m >>= fun a => Pure.pure (g a)) c R :=
  ⟨hm.ends.bind fun a c' hq => .pure (hg a c' hq), hm.exchange.map g⟩

theorem get {g : Cursor → Reader α} (hg : ∀ d, Sees c d → g d = g c) (h : Meets .whole quiet (g c) c Q) :
    Meets .whole quiet (MonadState.get >>= g) c Q :=
  ⟨.bind_get h.ends, local_get hg h.exchange⟩

end Meets

theorem failAt_meets {place : Location} (h : fault.isReading = true) :
    Meets extent quiet (failAt fault place) c Q :=
  ⟨.bind_get (.throw h), failAt_local fault place c⟩

theorem failHere_meets (h : fault.isReading = true) : Meets extent quiet (failHere fault) c Q :=
  ⟨.bind_get (.bind_get (.throw h)), failHere_local fault c⟩

theorem failUnexpected_meets {expected : String} : Meets extent quiet (failUnexpected t expected) c Q :=
  failAt_meets rfl

/-! ### Steps within a line -/

theorem takeWhile_eq (p : Token → Bool) (c : Cursor) :
    takeWhile p c = .ok (c.rest.takeWhile p) { c with rest := c.rest.dropWhile p } := rfl

theorem takeWhile_meets (p : Token → Bool) (c : Cursor) : Meets .within quiet (takeWhile p) c fun run c' =>
    run = c.rest.takeWhile p ∧ c' = { c with rest := c.rest.dropWhile p } :=
  ⟨.of_ok (takeWhile_eq p c) ⟨rfl, rfl⟩, takeWhile_local p c⟩

theorem skipSpaces_eq (c : Cursor) : skipSpaces c = .ok (c.rest.dropWhile fun t => t.kind == .spaces).head?
      { c with rest := c.rest.dropWhile fun t => t.kind == .spaces } := rfl

theorem takeWhile_reads {p : Token → Bool} (hp : ∀ t, p t = true → t.kind ≠ .lineBreak) (c : Cursor) :
    Reads (ink (c.rest.takeWhile p)) c { c with rest := c.rest.dropWhile p } where
  passes := by
    have h := Passes.of_append (c.rest.takeWhile p) (fun t ht => hp t (mem_takeWhile_imp ht)) (c.rest.dropWhile p)
    rwa [takeWhile_append_dropWhile] at h
  level := rfl
  unit := rfl
  types := rfl

theorem skipSpaces_reads (c : Cursor) :
    Reads [] c { c with rest := c.rest.dropWhile fun t => t.kind == .spaces } := by
  have h := takeWhile_reads (p := fun t => t.kind == .spaces) (fun t ht => by rw [beq_iff_eq.mp ht]; decide) c
  rwa [ink_of_spaces fun t ht => by simpa using mem_takeWhile_imp ht] at h

theorem skipSpaces_meets (c : Cursor) :
    Meets .within quiet skipSpaces c fun next c' =>
      Reads [] c c' ∧ next = c'.rest.head? ∧ ∀ t ∈ next, t.kind ≠ .spaces := by
  refine ⟨.of_ok (skipSpaces_eq c) ⟨skipSpaces_reads c, rfl, fun t ht => ?_⟩, skipSpaces_local c⟩
  have hhead := head?_dropWhile_not (fun t : Token => t.kind == .spaces) c.rest
  rw [Option.mem_def.mp ht] at hhead
  simpa using hhead

theorem next_meets (hc : c.rest = t :: rest) (hbreak : t.kind ≠ .lineBreak) (hink : t.kind ≠ .spaces) :
    Meets .within quiet next c fun u c' => u = t ∧ c'.rest = rest ∧ Reads [t] c c' := by
  refine ⟨.of_ok (next_eq hc) ⟨rfl, rfl, ?_, rfl, rfl, rfl⟩, next_local hc⟩
  rw [hc]
  exact .cons hbreak hink rest

theorem advance_meets (hc : c.rest = t :: rest) (hkind : t.kind = kind)
    (hink : kind ≠ .lineBreak ∧ kind ≠ .spaces) : Meets .within quiet advance c fun _ c' => Reads [t] c c' := by
  subst hkind
  refine .bind (next_meets hc hink.1 hink.2) ?_
  rintro u c' ⟨-, -, hreads⟩
  exact .pure hreads

theorem accept?_none (h : ∀ t ∈ (c.rest.dropWhile fun t => t.kind == .spaces).head?, t.kind ≠ kind) :
    accept? kind c = .ok none { c with rest := c.rest.dropWhile fun t => t.kind == .spaces } := by
  rw [accept?, bind_of_ok (skipSpaces_eq c)]
  cases hrest : c.rest.dropWhile fun t => t.kind == .spaces with
  | nil => rfl
  | cons t rest =>
    rw [hrest] at h
    simp only [head?_cons, beq_eq_false_iff_ne.mpr (h t rfl)]
    rfl

theorem accept?_meets (hbreak : kind ≠ .lineBreak) (c : Cursor) :
    Meets .within quiet (accept? kind) c fun found c' =>
      match found with
      | some t => t.kind = kind ∧ Reads [t] c c'
      | none => Reads [] c c' := by
  refine .bind (skipSpaces_meets c) ?_
  rintro found c1 ⟨hreads, rfl, hink⟩
  cases hrest : c1.rest with
  | nil => exact .pure hreads
  | cons t rest =>
    rw [hrest] at hink
    have htink : t.kind ≠ .spaces := hink t rfl
    by_cases hkind : t.kind = kind
    · simp only [head?_cons, hkind, beq_self_eq_true, if_true]
      refine .bind (advance_meets hrest rfl ⟨hkind ▸ hbreak, htink⟩) ?_
      rintro - c2 htaken
      exact .pure ⟨hkind, hreads.trans htaken⟩
    · have hne : (t.kind == kind) = false := beq_eq_false_iff_ne.mpr hkind
      simp only [head?_cons, hne]
      exact .pure hreads

theorem expect_meets (hbreak : kind ≠ .lineBreak) (description : String) (c : Cursor) :
    Meets .within quiet (expect kind description) c fun t c' => t.kind = kind ∧ Reads [t] c c' := by
  refine .bind (accept?_meets hbreak c) ?_
  rintro (- | t) c' h
  · exact failHere_meets rfl
  · exact .pure h

theorem atLineEnd_over (h : ∀ t ∈ c.rest.head?, t.kind = .lineBreak) : atLineEnd c = .ok true c := by
  rw [atLineEnd, get_bind]
  cases hrest : c.rest with
  | nil => rfl
  | cons t rest =>
    rw [hrest] at h
    simp only [endsLine, h t rfl, beq_self_eq_true, Bool.true_or]
    rfl

theorem atLineEnd_meets (c : Cursor) :
    Meets .within quiet atLineEnd c fun ended c' =>
      c' = c ∧ (ended = false → ∃ t rest, c.rest = t :: rest ∧ t.endsLine = false) := by
  refine ⟨.bind_get ?_, atLineEnd_local c⟩
  cases hrest : c.rest with
  | nil => exact Ends.pure ⟨rfl, by simp⟩
  | cons t rest => exact Ends.pure ⟨rfl, fun h => ⟨t, rest, rfl, h⟩⟩

theorem checkCase_ok (t : Token) (c : Cursor) :
    ∃ journal, checkCase t c = .ok () { c with journal := journal } := by
  rw [checkCase]
  split_ifs
  · exact ⟨c.journal, rfl⟩
  · exact ⟨_, rfl⟩

theorem checkCase_meets (t : Token) (c : Cursor) :
    Meets .within false (checkCase t) c fun _ c' => c'.rest = c.rest ∧ Reads [] c c' := by
  obtain ⟨journal, hok⟩ := checkCase_ok t c
  exact ⟨.of_ok hok ⟨rfl, .refl _, rfl, rfl, rfl⟩, checkCase_local t c⟩

/-! ### Runs and line ends -/

theorem captured_of_not_blank {stop : Token → Bool} {run : List Token}
    (hrun : ∀ t ∈ run, t.endsLine = false ∧ stop t = false)
    (hink : ∀ t ∈ (run ++ rest).head?, t.kind ≠ .spaces) (hblank : runIsBlank run = false) :
    Captured stop run := by
  cases run with
  | nil => simp [runIsBlank] at hblank
  | cons t more => exact ⟨⟨t, more, rfl, hink t rfl⟩, hrun⟩

theorem takeUntil_meets (stop : Token → Bool) (description : String) (c : Cursor) :
    Meets .within quiet (takeUntil stop description) c fun run c' =>
      Reads (ink run) c c' ∧ c.rest = run ++ c'.rest ∧
      (∀ t ∈ run, t.endsLine = false ∧ stop t = false) ∧
      ∃ t rest, c'.rest = t :: rest ∧ stop t = true ∧ t.endsLine = false := by
  have hreads := takeWhile_reads (p := fun t => !t.endsLine && !stop t)
    (fun t ht hkind => by simp [endsLine, hkind] at ht) c
  refine .bind (takeWhile_meets _ c) ?_
  rintro - - ⟨rfl, rfl⟩
  refine .bind (atLineEnd_meets _) ?_
  rintro ended - ⟨rfl, hover⟩
  cases ended with
  | true => exact failHere_meets rfl
  | false =>
    obtain ⟨t, rest, hrest, hend⟩ := hover rfl
    refine .pure ⟨hreads, takeWhile_append_dropWhile.symm, fun u hu => ?_, t, rest, hrest, ?_, hend⟩
    · simpa using mem_takeWhile_imp hu
    · have hhead := head?_dropWhile_not (fun t : Token => !t.endsLine && !stop t) c.rest
      change c.rest.dropWhile _ = t :: rest at hrest
      rw [hrest] at hhead
      simpa [hend] using hhead

theorem takeLine_meets (c : Cursor) :
    Meets .within quiet takeLine c fun run c' =>
      Reads (ink run) c c' ∧ c.rest = run ++ c'.rest ∧
      ∀ t ∈ run, t.endsLine = false ∧ (fun _ => false) t = false := by
  have hreads := takeWhile_reads (p := fun t => !t.endsLine) (fun t ht hkind => by simp [endsLine, hkind] at ht) c
  refine (takeWhile_meets _ c).weaken ?_
  rintro - - ⟨rfl, rfl⟩
  exact ⟨hreads, takeWhile_append_dropWhile.symm, fun t ht => by simpa using mem_takeWhile_imp ht⟩

theorem finishes_of_over (h : Reads trailing c c') (hremarks : ∀ t ∈ trailing, t.kind = .comment)
    (hsuffix : rest <:+ c'.rest) (hink : lineInk c'.rest = []) (hafter : afterLine c'.rest = rest) :
    Finishes [] trailing [] c { c' with rest := rest } where
  run := by
    obtain ⟨run, hc, hink⟩ := h.passes.run
    exact ⟨run, hc ▸ prefix_append run _, hink⟩
  suffix := hsuffix.trans h.passes.suffix
  length := (hsuffix.trans h.passes.suffix).length_le
  ink := fun hplain => by rw [h.passes.ink hplain, hink, append_nil, nil_append]
  after := fun hplain => by rw [← h.passes.sameLine hplain, hafter]
  remarks := hremarks
  level := h.level
  unit := h.unit
  types := by rw [h.types, append_nil]

theorem endLine_meets (h : Reads trailing c c1)
    (hremarks : ∀ t ∈ trailing, t.kind = .comment) {comments : List Node}
    (hcomments : comments = trailing.map remark) :
    Meets .whole quiet (endLine comments) c1 fun found c' =>
      ∃ trailing, Finishes [] trailing [] c c' ∧ found = trailing.map remark := by
  refine ⟨?_, endLine_local comments c1⟩
  cases hrest : c1.rest with
  | nil =>
    have hend : Finishes [] trailing [] c c1 := finishes_of_over h hremarks suffix_rfl
      (by rw [hrest, lineInk_nil]) (by rw [hrest, afterLine_nil])
    exact .of_ok (endLine_nil hrest) ⟨trailing, hend, hcomments⟩
  | cons t rest =>
    by_cases hbreak : t.kind = .lineBreak
    · have hend := finishes_of_over h hremarks (hrest ▸ suffix_cons t rest) (by rw [hrest, lineInk_break hbreak])
        (by rw [hrest, afterLine_break hbreak])
      exact .of_ok (endLine_break hrest hbreak) ⟨trailing, hend, hcomments⟩
    · exact .of_error (endLine_ink hrest hbreak) rfl

theorem finishLine_meets (c : Cursor) :
    Meets .whole quiet finishLine c fun comments c' =>
      ∃ trailing, Finishes [] trailing [] c c' ∧ comments = trailing.map remark := by
  refine .bind (accept?_meets (by decide) c) ?_
  rintro (- | t) c1 h
  · exact endLine_meets h (by simp) rfl
  · exact endLine_meets h.2 (by simpa using h.1) rfl

theorem finishHeader_meets (c : Cursor) :
    Meets .whole quiet finishHeader c fun comments c' =>
      ∃ colon trailing, colon.kind = .colon ∧ Finishes [colon] trailing [] c c' ∧
        comments = trailing.map remark := by
  refine .bind (expect_meets (by decide) _ c) ?_
  rintro colon c1 ⟨hkind, hreads⟩
  refine (finishLine_meets c1).weaken ?_
  rintro comments c' ⟨trailing, hfinish, rfl⟩
  exact ⟨colon, trailing, hkind, hreads.finish hfinish, rfl⟩

end Reader

end CirOutline
