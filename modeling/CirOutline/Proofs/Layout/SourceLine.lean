import CirOutline.Layout.Block
import Mathlib.Data.List.TakeWhile
import Mathlib.Tactic.Common

/-!
The lines of a list of tokens, without reference to how they are read. A line is the run of tokens
between two line breaks; it counts unless it is white space only. Its width is the length of the
white space in front of it, and its ink is all of it but white space.
-/

namespace CirOutline

open List Token

variable {t : Token} {run tokens : List Token}

def Token.ink (run : List Token) : List Token := run.filter fun t => t.kind != .spaces

/-- The place of what ink says: its first token, and for a mutable declaration the token after the
keyword. -/
def Token.place? : List Token → Option Location
  | [] => none
  | t :: rest =>
    if t.keyword? == some .mutableKey then rest.head?.map location else some t.location

def lineTokens (tokens : List Token) : List Token :=
  tokens.takeWhile fun t => t.kind != .lineBreak

def afterLine (tokens : List Token) : List Token :=
  (tokens.dropWhile fun t => t.kind != .lineBreak).tail

def lineInk (tokens : List Token) : List Token := ink (lineTokens tokens)

/-- A line: the tokens between two line breaks. -/
abbrev SourceLine := List Token

/-- The lines of a list of tokens that are not white space only. -/
def sourceLines (tokens : List Token) : List SourceLine :=
  (tokens.splitOnP fun t => t.kind == .lineBreak).filter fun l => !(ink l).isEmpty

def Keyword.opensBlock : Keyword → Bool
  | structureKey | methodKey | repeatKey | chooseKey | forKey | ifKey | whileKey | elseKey
  | elseIfKey | elsIfKey | elIfKey => true
  | _ => false

namespace SourceLine

def width : SourceLine → Nat
  | [] => 0
  | t :: _ => if t.kind == .spaces then t.raw.length else 0

def level (unit : Option Nat) (l : SourceLine) : Nat := l.width / unit.getD 1

def isRemark (l : SourceLine) : Bool :=
  (ink l).head?.any fun t => t.kind == .comment

def opensType (l : SourceLine) : Bool :=
  (ink l).head?.any fun t => t.keyword? == some .structureKey

/-- A line that owns the block below it: one that starts with the keyword of a header, or the line
of an option, which is a word and a colon. -/
def isHeader (l : SourceLine) : Bool :=
  match ink l with
  | [] => false
  | t :: rest =>
    match t.keyword? with
    | some keyword => keyword.opensBlock
    | none => t.kind == .word && rest.head?.any fun next => next.kind == .colon

def place? (l : SourceLine) : Option Location := Token.place? (Token.ink l)

end SourceLine

/-- The unit of indentation of lines: the width of the first one that is indented. -/
def unitWidth (lines : List SourceLine) : Option Nat :=
  (lines.map SourceLine.width).find? fun width => width != 0

/-! ### Ink and line ends -/

@[simp] theorem ink_nil : ink [] = [] := rfl

theorem ink_append (a b : List Token) : ink (a ++ b) = ink a ++ ink b :=
  filter_append a b

theorem ink_cons_of_spaces (h : t.kind = .spaces) (ts : List Token) : ink (t :: ts) = ink ts := by
  simp [ink, h]

theorem ink_cons (h : t.kind ≠ .spaces) (ts : List Token) : ink (t :: ts) = t :: ink ts := by
  simp [ink, h]

theorem ink_of_spaces (h : ∀ t ∈ run, t.kind = .spaces) : ink run = [] := by
  rw [ink, filter_eq_nil_iff]
  intro t ht
  simp [h t ht]

@[simp] theorem lineTokens_nil : lineTokens [] = [] := rfl

@[simp] theorem lineInk_nil : lineInk [] = [] := rfl

@[simp] theorem afterLine_nil : afterLine [] = [] := rfl

section

variable (h : ∀ t ∈ run, t.kind ≠ .lineBreak)
include h

theorem lineTokens_append (rest : List Token) : lineTokens (run ++ rest) = run ++ lineTokens rest :=
  takeWhile_append_of_pos fun t ht => by simp [h t ht]

theorem lineInk_append (rest : List Token) : lineInk (run ++ rest) = ink run ++ lineInk rest := by
  rw [lineInk, lineTokens_append h, ink_append, lineInk]

theorem afterLine_append (rest : List Token) : afterLine (run ++ rest) = afterLine rest := by
  rw [afterLine, dropWhile_append_of_pos fun t ht => by simp [h t ht], afterLine]

end

section

variable (h : t.kind = .lineBreak)
include h

theorem lineTokens_break (rest : List Token) : lineTokens (t :: rest) = [] := by
  simp [lineTokens, h]

theorem lineInk_break (rest : List Token) : lineInk (t :: rest) = [] := by
  rw [lineInk, lineTokens_break h, ink_nil]

theorem afterLine_break (rest : List Token) : afterLine (t :: rest) = rest := by
  simp [afterLine, h]

end

section

variable (h : t.kind ≠ .lineBreak)
include h

theorem lineTokens_cons (rest : List Token) : lineTokens (t :: rest) = t :: lineTokens rest := by
  simp [lineTokens, h]

theorem afterLine_cons (rest : List Token) : afterLine (t :: rest) = afterLine rest := by
  simp [afterLine, h]

theorem lineInk_cons (hink : t.kind ≠ .spaces) (rest : List Token) : lineInk (t :: rest) = t :: lineInk rest := by
  rw [lineInk, lineTokens_cons h, ink_cons hink, lineInk]

end

theorem lineInk_cons_of_spaces (h : t.kind = .spaces) (rest : List Token) :
    lineInk (t :: rest) = lineInk rest := by
  rw [lineInk, lineTokens_cons (by simp [h]), ink_cons_of_spaces h, lineInk]

theorem lineTokens_append_dropWhile (tokens : List Token) :
    tokens = lineTokens tokens ++ tokens.dropWhile (fun t => t.kind != .lineBreak) :=
  takeWhile_append_dropWhile.symm

theorem not_break_of_mem_lineTokens (h : t ∈ lineTokens tokens) : t.kind ≠ .lineBreak := by
  simpa using mem_takeWhile_imp h

theorem afterLine_suffix (tokens : List Token) : afterLine tokens <:+ tokens :=
  (tail_suffix _).trans (dropWhile_suffix _)

/-! ### Lines -/

@[simp] theorem sourceLines_nil : sourceLines [] = [] := rfl

theorem sourceLines_eq (tokens : List Token) : sourceLines tokens =
      (if lineInk tokens = [] then [] else [lineTokens tokens]) ++ sourceLines (afterLine tokens) := by
  have hline : ∀ t ∈ lineTokens tokens, (t.kind == TokenKind.lineBreak) = false := fun t ht => by
    simpa using not_break_of_mem_lineTokens ht
  cases hrest : tokens.dropWhile (fun t => t.kind != .lineBreak) with
  | nil =>
    have hall : lineTokens tokens = tokens := by
      have h := lineTokens_append_dropWhile tokens
      rw [hrest, append_nil] at h
      exact h.symm
    have hink : lineInk tokens = ink tokens := by rw [lineInk, hall]
    rw [hall] at hline
    rw [afterLine, hrest, tail_nil, sourceLines_nil, append_nil, sourceLines, hall, hink,
      splitOnP_eq_singleton hline]
    by_cases hempty : ink tokens = [] <;> simp [hempty]
  | cons sep rest =>
    have hsep : sep.kind = .lineBreak := by
      have h := head?_dropWhile_not (fun t : Token => t.kind != .lineBreak) tokens
      rw [hrest] at h
      simpa using h
    have hall : tokens = lineTokens tokens ++ sep :: rest := by
      have h := lineTokens_append_dropWhile tokens
      rwa [hrest] at h
    have hafter : afterLine tokens = rest := by rw [afterLine, hrest, tail_cons]
    rw [hafter, sourceLines, hall, splitOnP_append_cons_of_forall_mem hline sep (by simp [hsep]), ← hall,
      filter_cons, sourceLines]
    have hink : lineInk tokens = ink (lineTokens tokens) := rfl
    by_cases hempty : ink (lineTokens tokens) = [] <;> simp [hink, hempty]

theorem sourceLines_of_ink (h : lineInk tokens ≠ []) :
    sourceLines tokens = lineTokens tokens :: sourceLines (afterLine tokens) := by
  rw [sourceLines_eq, if_neg h, singleton_append]

theorem sourceLines_of_blank (h : lineInk tokens = []) : sourceLines tokens = sourceLines (afterLine tokens) := by
  rw [sourceLines_eq, if_pos h, nil_append]

theorem afterLine_length_lt (h : tokens ≠ []) : (afterLine tokens).length < tokens.length := by
  have hle := (dropWhile_suffix (fun t : Token => t.kind != .lineBreak) (l := tokens)).length_le
  have hpos := length_pos_iff.mpr h
  rw [afterLine, length_tail]
  omega

theorem of_mem_sourceLines {l : SourceLine} (h : l ∈ sourceLines tokens) :
    l <:+: tokens ∧ (∀ t ∈ l, t.kind ≠ .lineBreak) ∧ ink l ≠ [] := by
  induction hn : tokens.length using Nat.strong_induction_on generalizing tokens with
  | _ n ih =>
    by_cases hne : tokens = []
    · simp [hne] at h
    · rw [sourceLines_eq, mem_append] at h
      rcases h with h | h
      · split_ifs at h with hink
        · simp at h
        · obtain rfl := mem_singleton.mp h
          exact ⟨(List.takeWhile_prefix _).isInfix, fun t => not_break_of_mem_lineTokens, hink⟩
      · obtain ⟨hpiece, hline⟩ := ih _ (hn ▸ afterLine_length_lt hne) h rfl
        exact ⟨hpiece.trans (afterLine_suffix _).isInfix, hline⟩

theorem flatten_sourceLines_sublist (tokens : List Token) : (sourceLines tokens).flatten.Sublist tokens := by
  induction hn : tokens.length using Nat.strong_induction_on generalizing tokens with
  | _ n ih =>
    by_cases hne : tokens = []
    · simp [hne]
    · have hfirst : (if lineInk tokens = [] then [] else [lineTokens tokens]).flatten.Sublist
          (lineTokens tokens) := by
        split_ifs <;> simp
      have hrest := ih _ (hn ▸ afterLine_length_lt hne) (afterLine tokens) rfl
      rw [sourceLines_eq, flatten_append]
      have hwhole := hfirst.append (hrest.trans (tail_sublist _))
      rw [lineTokens, takeWhile_append_dropWhile] at hwhole
      exact hwhole

/-! ### Blank lines -/

theorem dropBlankLines_suffix (tokens : List Token) : dropBlankLines tokens <:+ tokens := by
  fun_induction dropBlankLines tokens with
  | case1 => exact suffix_rfl
  | case2 t rest _ ih => exact ih.trans (suffix_cons t rest)
  | case3 t _ _ => exact nil_suffix
  | case4 t _ _ next rest _ ih => exact ih.trans (suffix_cons t (next :: rest))
  | case5 | case6 => exact suffix_rfl

theorem sourceLines_dropBlankLines (tokens : List Token) :
    sourceLines (dropBlankLines tokens) = sourceLines tokens := by
  fun_induction dropBlankLines tokens with
  | case1 => rfl
  | case2 t rest hbreak ih =>
    have hkind : t.kind = .lineBreak := by simpa using hbreak
    rw [ih, sourceLines_of_blank (lineInk_break hkind rest), afterLine_break hkind]
  | case3 t _ hspaces =>
    have hkind : t.kind = .spaces := by simpa using hspaces
    have hblank : lineInk [t] = [] := by rw [lineInk_cons_of_spaces hkind, lineInk_nil]
    rw [sourceLines_of_blank hblank, afterLine_cons (by simp [hkind]), afterLine_nil]
  | case4 t _ hspaces next rest hnext ih =>
    have hkind : t.kind = .spaces := by simpa using hspaces
    have hbreak : next.kind = .lineBreak := by simpa using hnext
    have hblank : lineInk (t :: next :: rest) = [] := by
      rw [lineInk_cons_of_spaces hkind, lineInk_break hbreak]
    rw [ih, sourceLines_of_blank hblank, afterLine_cons (by simp [hkind]),
      sourceLines_of_blank (lineInk_break hbreak rest)]
  | case5 | case6 => rfl

theorem dropBlankLines_head {rest : List Token} (h : dropBlankLines tokens = t :: rest) : t.kind ≠ .lineBreak ∧
      (t.kind = .spaces → ∃ next more, rest = next :: more ∧ next.kind ≠ .lineBreak) := by
  fun_induction dropBlankLines tokens with
  | case1 => simp at h
  | case2 u us _ ih => exact ih h
  | case3 => simp at h
  | case4 u _ _ next us _ ih => exact ih h
  | case5 u hbreak hspaces next us hnext =>
    obtain ⟨rfl, rfl⟩ := List.cons.inj h
    exact ⟨by simpa using hbreak, fun _ => ⟨next, us, rfl, by simpa using hnext⟩⟩
  | case6 u us hbreak hspaces =>
    obtain ⟨rfl, rfl⟩ := List.cons.inj h
    exact ⟨by simpa using hbreak, fun hkind => absurd hkind (by simpa using hspaces)⟩

end CirOutline
