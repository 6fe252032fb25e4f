import CirOutline.Proofs.Token.LineScanning

/-!
Texts without their comments. A comment goes from two slashes to the end of its line; deleting it
leaves the code before it, and a line with a comment only is deleted with its line end. What is left
is split into the lines of the text with the comments taken off: the same tokens, at the same
indentation, without the lines that were comments only.
-/

namespace CirOutline

open Scan LexicalRule
open List hiding after

variable {cs line : List Char} {l : SourceLine} {c : Char} {tokens : List Token}

/-! ### Lines of a text and their ends -/

/-- A line of a text and what ends it: nothing, at the end of the text. -/
structure Text.Row where
  line : List Char
  ending : List Char

namespace Text

variable {rs : List Row}

def Row.extend (c : Char) : List Row → List Row
  | [] => [⟨[c], []⟩]
  | row :: more => ⟨c :: row.line, row.ending⟩ :: more

/-- The rows of a text; a carriage return and a line feed together end one line. -/
def rows : List Char → List Row
  | [] => [⟨[], []⟩]
  | '\r' :: '\n' :: rest => ⟨[], ['\r', '\n']⟩ :: rows rest
  | c :: rest => if isBreak c then ⟨[], [c]⟩ :: rows rest else Row.extend c (rows rest)

def Row.text (rs : List Row) : List Char := rs.flatMap fun row => row.line ++ row.ending

def beforeComment : List Char → List Char
  | [] => []
  | '/' :: '/' :: _ => []
  | c :: rest => c :: beforeComment rest

/-- Whether a line is a comment only: two slashes come first, white space aside. -/
def isRemark (line : List Char) : Bool := ['/', '/'].isPrefixOf (line.dropWhile isGap)

/-- The rows without their comments, and without those that are a comment only. -/
def Row.uncommented (rs : List Row) : List Row :=
  (rs.filter fun row => !isRemark row.line).map fun row => ⟨beforeComment row.line, row.ending⟩

def withoutComments (source : String) : String :=
  String.ofList (Row.text (Row.uncommented (rows source.toList)))

def leadingGap (line : List Char) : List Char := line.takeWhile isGap

/-- Every comment line is indented like the next line that is no comment, if there is one. -/
def remarksAligned : List (List Char) → Bool
  | [] => true
  | line :: rest =>
    (!isRemark line ||
      (rest.find? fun next => !isRemark next).all fun next => leadingGap next == leadingGap line) &&
    remarksAligned rest

/-- Lines end where their ends are, and only the last one may have none. -/
structure Row.Divided (rs : List Row) : Prop where
  lines : ∀ row ∈ rs, ∀ c ∈ row.line, isBreak c = false
  ends : ∀ row ∈ rs, ∀ c ∈ row.ending, isBreak c = true
  parted : rs.Pairwise fun row _ => row.ending ≠ []

theorem rows_text (cs : List Char) : Row.text (rows cs) = cs := by
  have hextend : ∀ (c : Char) (rs : List Row), Row.text (Row.extend c rs) = c :: Row.text rs := by
    intro c rs
    cases rs <;> rfl
  fun_induction rows cs with
  | case1 => rfl
  | case2 rest ih | case3 c rest _ hbreak ih => rw [Row.text, flatMap_cons, ← Row.text, ih]; rfl
  | case4 c rest _ hbreak ih => rw [hextend, ih]

theorem Row.Divided.cons {row : Row} (h : Row.Divided rs)
    (hline : ∀ c ∈ row.line, isBreak c = false) (hending : ∀ c ∈ row.ending, isBreak c = true)
    (hne : row.ending ≠ []) : Row.Divided (row :: rs) where
  lines := forall_mem_cons.mpr ⟨hline, h.lines⟩
  ends := forall_mem_cons.mpr ⟨hending, h.ends⟩
  parted := .cons (fun _ _ => hne) h.parted

theorem Row.Divided.extend (h : Row.Divided rs) (hc : isBreak c = false) : Row.Divided (Row.extend c rs) := by
  cases rs with
  | nil => exact ⟨by simpa [Row.extend] using hc, by simp [Row.extend], pairwise_singleton _ _⟩
  | cons row more =>
    obtain ⟨hlines, hends, hparted⟩ := h
    rw [forall_mem_cons] at hlines hends
    rw [pairwise_cons] at hparted
    refine ⟨forall_mem_cons.mpr ⟨?_, hlines.2⟩, forall_mem_cons.mpr hends, .cons hparted.1 hparted.2⟩
    exact forall_mem_cons.mpr ⟨hc, hlines.1⟩

theorem rows_divided (cs : List Char) : Row.Divided (rows cs) := by
  fun_induction rows cs with
  | case1 => exact ⟨by simp, by simp, pairwise_singleton _ _⟩
  | case2 rest ih => exact ih.cons (by simp) (by simp [isBreak]) (by simp)
  | case3 c rest _ hbreak ih => exact ih.cons (by simp) (by simpa using hbreak) (by simp)
  | case4 c rest _ hbreak ih => exact ih.extend (by simpa using hbreak)

theorem Row.text_cons (row : Row) (rs : List Row) :
    Row.text (row :: rs) = row.line ++ (row.ending ++ Row.text rs) := by
  rw [Row.text, flatMap_cons, append_assoc, Row.text]

namespace Row.Divided

variable {row : Row}

theorem tail (h : Row.Divided (row :: rs)) : Row.Divided rs :=
  ⟨fun r hr => h.lines r (mem_cons_of_mem _ hr), fun r hr => h.ends r (mem_cons_of_mem _ hr),
    (pairwise_cons.mp h.parted).2⟩

theorem eq_nil (h : Row.Divided (row :: rs)) (hending : row.ending = []) : rs = [] := by
  cases rs with
  | nil => rfl
  | cons next rs => exact absurd hending ((pairwise_cons.mp h.parted).1 next mem_cons_self)

theorem textLines_text (h : Row.Divided rs) :
    textLines (Row.text rs) = (rs.map Row.line).filter fun line => !line.all isGap := by
  induction rs with
  | nil => rfl
  | cons row rs ih =>
    have hline := h.lines row mem_cons_self
    have hfirst : ([row.line].filter fun line => !line.all isGap) =
        if row.line.all isGap = true then [] else [row.line] := by
      cases hgap : row.line.all isGap <;> simp [hgap]
    rw [Row.text_cons, map_cons, ← singleton_append, filter_append, hfirst]
    cases hending : row.ending with
    | nil =>
      rw [h.eq_nil hending, Row.text, flatMap_nil, append_nil, append_nil, textLines_of_line hline]
      simp
    | cons c ending =>
      have hends := h.ends row mem_cons_self
      rw [hending, forall_mem_cons] at hends
      rw [cons_append, textLines_append_break hline hends.1, textLines_breaks hends.2, ih h.tail]

theorem lexable_text (h : Row.Divided rs) : Lexable (Row.text rs) ↔ ∀ row ∈ rs, Lexable row.line := by
  induction rs with
  | nil => exact ⟨by simp, fun _ => ⟨[], .nil⟩⟩
  | cons row rs ih =>
    have hline := h.lines row mem_cons_self
    rw [Row.text_cons, forall_mem_cons]
    by_cases hending : row.ending = []
    · rw [h.eq_nil hending, hending, Row.text, flatMap_nil, append_nil, append_nil]
      simp
    · have hends := h.ends row mem_cons_self
      have hseam : Seam row.line (row.ending ++ Row.text rs) := by
        refine seam_break hline fun d hd => ?_
        rw [head?_append_of_ne_nil _ hending] at hd
        exact hends d (mem_of_mem_head? hd)
      rw [lexable_append hseam, lexable_breaks hends, ih h.tail]

end Row.Divided

/-! ### Lines and their comments -/

theorem beforeComment_cons {rest : List Char} (h : ¬ ['/', '/'] <+: c :: rest) :
    beforeComment (c :: rest) = c :: beforeComment rest := by
  rw [beforeComment]
  rintro tail rfl rfl
  exact h ⟨tail, rfl⟩

theorem beforeComment_of_slashes (h : ['/', '/'] <+: line) : beforeComment line = [] := by
  obtain ⟨rest, rfl⟩ := h
  rfl

theorem beforeComment_append (line : List Char) :
    ∃ tail, line = beforeComment line ++ tail ∧ (tail = [] ∨ ['/', '/'] <+: tail) ∧
      ¬ ['/', '/'] <:+: beforeComment line ++ tail.take 1 := by
  induction line with
  | nil => exact ⟨[], rfl, .inl rfl, by decide⟩
  | cons c rest ih =>
    by_cases hslash : ['/', '/'] <+: c :: rest
    · refine ⟨c :: rest, by rw [beforeComment_of_slashes hslash]; rfl, .inr hslash, ?_⟩
      intro hslashes
      rw [beforeComment_of_slashes hslash] at hslashes
      exact Nat.not_succ_le_self _ hslashes.length_le
    · obtain ⟨tail, hrest, htail, hslashes⟩ := ih
      rw [beforeComment_cons hslash]
      refine ⟨tail, by rw [cons_append, ← hrest], htail, ?_⟩
      intro hlater
      rcases infix_cons_iff.mp hlater with hstart | hlater
      · apply hslash
        have hlonger : c :: (beforeComment rest ++ tail.take 1) <+: c :: rest := by
          nth_rewrite 2 [hrest]
          exact prefix_cons_inj c |>.mpr ((prefix_append_right_inj _).mpr (List.take_prefix 1 tail))
        exact hstart.trans hlonger
      · exact hslashes hlater

theorem not_prefix_of_gap (h : isGap c = true) (rest : List Char) : ¬ ['/', '/'] <+: c :: rest := by
  intro hslash
  obtain ⟨rfl, -⟩ := cons_prefix_cons.mp hslash
  exact Bool.noConfusion h

theorem isRemark_iff (hink : line.all isGap = false) :
    isRemark line = true ↔ (beforeComment line).all isGap = true := by
  induction line with
  | nil => simp at hink
  | cons c rest ih =>
    by_cases hgap : isGap c = true
    · rw [all_cons, hgap, Bool.true_and] at hink
      rw [beforeComment_cons (not_prefix_of_gap hgap rest), all_cons, hgap, Bool.true_and, ← ih hink,
        isRemark, dropWhile_cons_of_pos hgap, isRemark]
    · rw [isRemark, dropWhile_cons_of_neg hgap, isPrefixOf_iff_prefix]
      by_cases hslash : ['/', '/'] <+: c :: rest
      · rw [beforeComment_of_slashes hslash]
        exact ⟨fun _ => rfl, fun _ => hslash⟩
      · rw [beforeComment_cons hslash, all_cons]
        simp [hgap, hslash]

theorem leadingGap_beforeComment (line : List Char) : leadingGap (beforeComment line) = leadingGap line := by
  induction line with
  | nil => rfl
  | cons c rest ih =>
    by_cases hgap : isGap c = true
    · rw [leadingGap, leadingGap] at ih ⊢
      rw [beforeComment_cons (not_prefix_of_gap hgap rest), takeWhile_cons_of_pos hgap, ih,
        takeWhile_cons_of_pos hgap]
    · rw [leadingGap, leadingGap, takeWhile_cons_of_neg hgap]
      by_cases hslash : ['/', '/'] <+: c :: rest
      · rw [beforeComment_of_slashes hslash, takeWhile_nil]
      · rw [beforeComment_cons hslash, takeWhile_cons_of_neg hgap]

theorem beforeComment_line (h : ∀ c ∈ line, isBreak c = false) : ∀ c ∈ beforeComment line, isBreak c = false := by
  obtain ⟨tail, hline, -⟩ := beforeComment_append line
  intro c hc
  apply h c
  rw [hline]
  exact mem_append_left tail hc

theorem seam_beforeComment (h : ∀ c ∈ line, isBreak c = false) :
    ∃ tail, line = beforeComment line ++ tail ∧ (tail = [] ∨ ['/', '/'] <+: tail) ∧
      Seam (beforeComment line) tail ∧ ¬ ['/', '/'] <:+: beforeComment line := by
  obtain ⟨tail, hline, htail, hcode⟩ := beforeComment_append line
  have hfront : ¬ ['/', '/'] <:+: beforeComment line := fun hslashes =>
    hcode (hslashes.trans (prefix_append _ _).isInfix)
  refine ⟨tail, hline, htail, ⟨beforeComment_line h, ?_, ?_⟩, hfront⟩
  · rcases htail with rfl | ⟨more, rfl⟩
    · simp
    · simp [cutters]
  · intro hslash
    rcases htail with rfl | ⟨more, rfl⟩
    · simp at hslash
    · exact hcode

end Text

open Text

theorem LexicalRule.firstMatch?_comment {more : List Char} (h : ∀ c ∈ more, isBreak c = false) :
    firstMatch? ('/' :: '/' :: more) = some (.comment, ('/' :: '/' :: more).length) := by
  have hkeyword : keywordWidth ('/' :: '/' :: more) = 0 := by
    by_contra hne
    have hopens : some (opening '/') = some .letter := keyword_opens _ hne
    exact absurd hopens (by decide)
  have hcomment : commentWidth ('/' :: '/' :: more) = ('/' :: '/' :: more).length := by
    have hall : (more.takeWhile fun c => c != '\r' && c != '\n') = more := by
      rw [takeWhile_eq_self_iff]
      intro c hc
      simpa [isBreak] using h c hc
    rw [commentWidth, hall, length_cons, length_cons, Nat.add_comm]
  simp [firstMatch?, table, hkeyword, hcomment]

theorem Lexed.of_comment {tail : List Char} (h : Lexed tail tokens) (hslash : ['/', '/'] <+: tail)
    (hline : ∀ c ∈ tail, isBreak c = false) : ∃ t, tokens = [t] ∧ t.kind = .comment := by
  obtain ⟨more, rfl⟩ := hslash
  have hmatch := firstMatch?_comment fun c hc => hline c (mem_append_right ['/', '/'] hc)
  obtain ⟨t, rest, others, htext, rfl, hfirst, -, hrest⟩ := h.first (cons_ne_nil _ _)
  obtain ⟨hkind, hlength⟩ := Prod.mk.inj (Option.some.inj (hmatch.symm.trans hfirst))
  rw [← String.length_toList] at hlength
  obtain ⟨-, rfl⟩ := append_inj ((append_nil _).trans htext) hlength
  exact ⟨t, by rw [hrest.eq_nil], hkind.symm⟩

theorem Lexed.kind_ne_comment (h : Lexed cs tokens) (hcode : ¬ ['/', '/'] <:+: cs) :
    ∀ t ∈ tokens, t.kind ≠ .comment := by
  induction h with
  | nil => simp
  | @cons t cs tokens hmatch hplain hrest ih =>
    rw [forall_mem_cons]
    refine ⟨fun hkind => hcode ?_, ih fun hlater => hcode ?_⟩
    · have hlexeme := (firstMatch?_sound hmatch).2.1
      rw [← String.length_toList, take_left, hkind] at hlexeme
      obtain ⟨more, hraw⟩ := hlexeme
      rw [hraw]
      exact ⟨[], more ++ cs, rfl⟩
    · exact hlater.trans (suffix_append _ cs).isInfix

def SourceLine.code (l : SourceLine) : List Token :=
  (Token.ink l).filter fun t => t.kind != .comment

theorem Lexed.onLine (h : Lexed cs tokens) (hline : ∀ c ∈ cs, isBreak c = false) : Token.OnLine tokens := by
  intro t ht
  obtain ⟨hne, hspells⟩ := h.spelled t ht
  refine ⟨fun hkind => ?_, hne, hspells⟩
  obtain ⟨c, more, hraw⟩ := exists_cons_of_ne_nil hne
  have hc : c ∈ t.raw.toList := hraw ▸ mem_cons_self
  rw [hkind] at hspells
  have hbreak := hline c (h.chars_eq ▸ mem_flatMap.mpr ⟨t, ht, hc⟩)
  rw [hspells c hc] at hbreak
  exact Bool.noConfusion hbreak

theorem Lexed.exists_code {text : List Char} (h : Lexed text l) (hline : ∀ c ∈ text, isBreak c = false) :
    ∃ before, Lexed (beforeComment text) before ∧ l.code = Token.ink before := by
  obtain ⟨tail, htext, htail, hseam, hcode⟩ := seam_beforeComment hline
  rw [htext] at h
  obtain ⟨before, after, rfl, hbefore, hafter⟩ := h.split hseam
  have hfront : SourceLine.code before = Token.ink before := by
    rw [SourceLine.code, filter_eq_self]
    intro t ht
    simpa using hbefore.kind_ne_comment hcode t (mem_of_mem_filter ht)
  have hback : SourceLine.code after = [] := by
    rcases htail with rfl | hslash
    · rw [hafter.eq_nil]
      rfl
    · have hends : ∀ c ∈ tail, isBreak c = false := fun c hc =>
        hline c (htext ▸ mem_append_right _ hc)
      obtain ⟨t, rfl, hkind⟩ := hafter.of_comment hslash hends
      simp [SourceLine.code, Token.ink, hkind]
  refine ⟨before, hbefore, ?_⟩
  rw [SourceLine.code, ink_append, filter_append, ← SourceLine.code, ← SourceLine.code, hfront, hback, append_nil]

structure SourceLine.Scans (text : List Char) (l : SourceLine) : Prop where
  lexed : Lexed text l
  line : ∀ c ∈ text, isBreak c = false
  width : l.width = (leadingGap text).length
  filled : text.all isGap = false

theorem SourceLine.Scans.ink_ne_nil {text : List Char} (h : Scans text l) : Token.ink l ≠ [] := by
  intro hink
  have hblank := (h.lexed.onLine h.line).blank_iff.mpr hink
  rw [← h.lexed.chars_eq, h.filled] at hblank
  exact Bool.false_ne_true hblank

theorem scans_textLines {source file : String} (h : tokenize source file = .ok tokens) :
    List.Forall₂ SourceLine.Scans (textLines source.toList) (sourceLines tokens) := by
  rw [← tokenize_textLines h, forall₂_map_left_iff, forall₂_same]
  intro l hl
  have hlexed := (lexed_of_tokensFrom (tokensFrom_of_tokenize h)).of_mem_lines l hl
  obtain ⟨hpiece, hbreak, hink⟩ := of_mem_sourceLines hl
  have honline : Token.OnLine l := fun t ht =>
    ⟨hbreak t ht, (tokenize_tokenized h).spelled t (hpiece.subset ht)⟩
  refine ⟨hlexed, honline.chars_break, (tokenize_tokenized h).width_eq hl, ?_⟩
  rw [Bool.eq_false_iff]
  exact fun hblank => hink (honline.blank_iff.mp hblank)

/-- Lines without the comments of other lines. Lines with a comment only are left out; each of them
is indented like the next line that stays. -/
inductive Uncommented : List SourceLine → List SourceLine → Prop
  | nil : Uncommented [] []
  | remark {l ls ms} (hcode : l.code = [])
      (hnext : ∀ m ∈ ms.head?, m.width = l.width) (hrest : Uncommented ls ms) :
      Uncommented (l :: ls) ms
  | line {l m : SourceLine} {ls ms : List SourceLine}
      (hcode : List.Forall₂ Token.Alike l.code (Token.ink m)) (hink : Token.ink m ≠ [])
      (hwidth : m.width = l.width) (hrest : Uncommented ls ms) : Uncommented (l :: ls) (m :: ms)

theorem uncommented_of_scans {texts : List (List Char)} {ls ms : List SourceLine}
    (hls : List.Forall₂ SourceLine.Scans texts ls)
    (hms : List.Forall₂ SourceLine.Scans ((texts.filter fun text => !isRemark text).map beforeComment) ms)
    (haligned : remarksAligned texts = true) : Uncommented ls ms := by
  induction hls generalizing ms with
  | nil =>
    cases hms
    exact .nil
  | @cons text l texts ls hl hls ih =>
    obtain ⟨hnext, hrest⟩ := Bool.and_eq_true_iff.mp haligned
    obtain ⟨before, hbefore, hcode⟩ := hl.lexed.exists_code hl.line
    cases hremark : isRemark text with
    | true =>
      rw [filter_cons_of_neg (by simp [hremark])] at hms
      refine .remark ?_ ?_ (ih hms hrest)
      · have hgap : (Token.chars before).all isGap = true := by
          rw [← hbefore.chars_eq]
          exact (isRemark_iff hl.filled).mp hremark
        rw [hcode]
        exact (hbefore.onLine (beforeComment_line hl.line)).blank_iff.mp hgap
      · intro m hm
        obtain ⟨more, rfl⟩ := head?_eq_some_iff.mp hm
        rw [forall₂_map_left_iff] at hms
        obtain ⟨next, others, hscans, -, hothers⟩ := forall₂_cons_right_iff.mp hms
        -- the line that stays is the next one that is no comment
        have hfind : (texts.find? fun text => !isRemark text) = some next := by
          rw [← head?_filter, hothers, head?_cons]
        rw [hremark, hfind] at hnext
        have hsame : leadingGap next = leadingGap text := by simpa using hnext
        rw [hscans.width, leadingGap_beforeComment, hsame, hl.width]
    | false =>
      rw [filter_cons_of_pos (by simp [hremark]), map_cons] at hms
      cases hms with
      | @cons _ m _ ms hm hms =>
        refine .line ?_ hm.ink_ne_nil ?_ (ih hms hrest)
        · rw [hcode]
          exact Token.SameInk.of_forall₂ (hbefore.alike hm.lexed)
        · rw [hm.width, hl.width, leadingGap_beforeComment]

theorem Text.Row.Divided.uncommented (h : Row.Divided rs) : Row.Divided (Row.uncommented rs) where
  lines := by
    rw [Row.uncommented, forall_mem_map]
    exact fun row hrow => beforeComment_line (h.lines row (mem_of_mem_filter hrow))
  ends := by
    rw [Row.uncommented, forall_mem_map]
    exact fun row hrow => h.ends row (mem_of_mem_filter hrow)
  parted := by
    rw [Row.uncommented, pairwise_map]
    exact h.parted.filter _

theorem Text.Row.Divided.textLines_uncommented (h : Row.Divided rs) : textLines (Row.text (Row.uncommented rs)) =
      ((textLines (Row.text rs)).filter fun text => !isRemark text).map beforeComment := by
  have hlines : (Row.uncommented rs).map Row.line =
      ((rs.map Row.line).filter fun line => !isRemark line).map beforeComment := by
    rw [Row.uncommented, map_map, filter_map, map_map]
    rfl
  rw [h.uncommented.textLines_text, h.textLines_text, hlines, filter_map, filter_filter, filter_filter]
  congr 1
  refine filter_congr fun line _ => ?_
  cases hblank : line.all isGap with
  | true =>
    obtain ⟨tail, hline, -⟩ := beforeComment_append line
    rw [hline, all_append, Bool.and_eq_true] at hblank
    simp [hblank.1]
  | false =>
    rw [Function.comp_apply, Bool.eq_iff_iff.mpr (isRemark_iff hblank), Bool.and_self]
    simp

theorem tokenize_withoutComments {source file : String} (h : tokenize source file = .ok tokens)
    (haligned : remarksAligned (textLines source.toList) = true) :
    ∃ others, tokenize (withoutComments source) file = .ok others ∧
      Uncommented (sourceLines tokens) (sourceLines others) := by
  have hrows := rows_divided source.toList
  have hlexable : Lexable (withoutComments source).toList := by
    have hsource : Lexable (Row.text (rows source.toList)) := by
      rw [rows_text]
      exact ⟨tokens, lexed_of_tokensFrom (tokensFrom_of_tokenize h)⟩
    rw [withoutComments, String.toList_ofList, hrows.uncommented.lexable_text, Row.uncommented, forall_mem_map]
    intro row hrow
    have hrow := mem_of_mem_filter hrow
    obtain ⟨tail, hline, -, hseam, -⟩ := seam_beforeComment (hrows.lines row hrow)
    have hwhole := hrows.lexable_text.mp hsource row hrow
    rw [hline] at hwhole
    exact ((lexable_append hseam).mp hwhole).1
  obtain ⟨others, hothers⟩ := tokenize_of_lexable hlexable file
  refine ⟨others, hothers, uncommented_of_scans (scans_textLines h) ?_ haligned⟩
  have hlines := scans_textLines hothers
  rw [withoutComments, String.toList_ofList, hrows.textLines_uncommented, rows_text] at hlines
  exact hlines

example : Text.withoutComments "Int(a) // one\n// two\r\n  PASS" = "Int(a) \n  PASS" := by
  decide +kernel

end CirOutline
