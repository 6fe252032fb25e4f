import CirOutline.Emission.Emitter
import CirOutline.Proofs.Token.Lexeme

/-!
Output as trees. A piece of output is a line, or a block whose inner lines stand one group deeper
than the lines that open and close it. `Piece.allLines` prints pieces by shifting the lines of
blocks to the right; `Piece.allMarked` lists the same lines with their part in the nesting and the
number of groups around them. What is printed is well nested, and that can also be told from its
text alone.
-/

namespace CirOutline

open List String Text

variable {content : String} {groups : Nat} {width : Int} {c : Char} {rest : List Char}

/-- What a block is closed by. -/
inductive Bracket where
  | brace
  | conditional
deriving DecidableEq

/-- The part of a line in the nesting. The lines after an opening one stand in a group of their own
if it `indents`. -/
inductive Role where
  | plain
  | opens (bracket : Bracket) (indents : Bool)
  | closes (bracket : Bracket)
deriving DecidableEq

/-- A part of the output. -/
inductive Piece where
  | line (content : String)
  | braces (opening : String) (inner : List Piece)
  /-- A block for the case that a symbol is defined. -/
  | option (symbol : String) (inner : List Piece)
  /-- A symbol that is defined under a condition. -/
  | fallback (condition symbol : String)

def blanks (width : Int) : String := String.ofList (List.replicate width.toNat ' ')

def shift (width : Int) (line : String) : String :=
  if line.isEmpty then line else blanks width ++ line

/-- A line of output with its part in the nesting and the number of groups around it. -/
structure PrintedLine where
  role : Role
  groups : Nat
  content : String

def PrintedLine.text (width : Int) (l : PrintedLine) : String := shift (width * l.groups) l.content

namespace Piece

mutual
/-- The lines of a piece; the inner lines of a block are shifted right by `width`. -/
def lines (width : Int) : Piece → List String
  | line content => [content]
  | braces opening inner =>
    (opening ++ " \x7b") :: ((allLines width inner).map (shift width) ++ ["\x7d"])
  | option symbol inner =>
    ("#ifdef " ++ symbol) :: ((allLines width inner).map (shift width) ++ ["#endif"])
  | fallback condition symbol => ["#if " ++ condition, "  #define " ++ symbol, "#endif"]

def allLines (width : Int) : List Piece → List String
  | [] => []
  | p :: ps => p.lines width ++ allLines width ps
end

mutual
def marked (groups : Nat) : Piece → List PrintedLine
  | line content => [⟨.plain, groups, content⟩]
  | braces opening inner =>
    ⟨.opens .brace true, groups, opening ++ " \x7b"⟩ ::
      (allMarked (groups + 1) inner ++ [⟨.closes .brace, groups, "\x7d"⟩])
  | option symbol inner =>
    ⟨.opens .conditional true, groups, "#ifdef " ++ symbol⟩ ::
      (allMarked (groups + 1) inner ++ [⟨.closes .conditional, groups, "#endif"⟩])
  | fallback condition symbol =>
    [⟨.opens .conditional false, groups, "#if " ++ condition⟩,
      ⟨.plain, groups, "  #define " ++ symbol⟩, ⟨.closes .conditional, groups, "#endif"⟩]

def allMarked (groups : Nat) : List Piece → List PrintedLine
  | [] => []
  | p :: ps => p.marked groups ++ allMarked groups ps
end

theorem pieces_induction {P : List Piece → Prop} (nil : P []) (line : ∀ content ps, P ps → P (.line content :: ps))
    (braces : ∀ opening inner ps, P inner → P ps → P (.braces opening inner :: ps))
    (option : ∀ symbol inner ps, P inner → P ps → P (.option symbol inner :: ps))
    (fallback : ∀ condition symbol ps, P ps → P (.fallback condition symbol :: ps))
    (ps : List Piece) : P ps :=
  @Piece.rec_1 (fun p => ∀ ps, P ps → P (p :: ps)) P (fun content => line content)
    (fun opening inner hinner ps => braces opening inner ps hinner)
    (fun symbol inner hinner ps => option symbol inner ps hinner)
    (fun condition symbol => fallback condition symbol) nil (fun _ ps hp hps => hp ps hps) ps

theorem intersperse_of_append {β : Type} {F : List Piece → List β} (happend : ∀ ps qs, F (ps ++ qs) = F ps ++ F qs)
    (hblank : F [.line ""] = []) (ps : List Piece) : F (ps.intersperse (.line "")) = F ps := by
  induction ps with
  | nil => rfl
  | cons p ps ih =>
    cases ps with
    | nil => rfl
    | cons q ps =>
      have hsplit : ∀ (p : Piece) (ps : List Piece), F (p :: ps) = F [p] ++ F ps := fun p ps => happend [p] ps
      rw [intersperse_cons_cons, hsplit, hsplit (.line ""), hblank, ih, nil_append, ← hsplit]

theorem allLines_append (width : Int) (ps qs : List Piece) :
    allLines width (ps ++ qs) = allLines width ps ++ allLines width qs := by
  induction ps with
  | nil => rfl
  | cons p ps ih => rw [cons_append, allLines, allLines, ih, List.append_assoc]

theorem allMarked_append (groups : Nat) (ps qs : List Piece) :
    allMarked groups (ps ++ qs) = allMarked groups ps ++ allMarked groups qs := by
  induction ps with
  | nil => rfl
  | cons p ps ih => rw [cons_append, allMarked, allMarked, ih, List.append_assoc]

end Piece

/-! ### Margins -/

theorem blanks_append (a b : Int) (h : (0 ≤ a ∧ 0 ≤ b) ∨ (a ≤ 0 ∧ b ≤ 0)) :
    blanks a ++ blanks b = blanks (a + b) := by
  rw [blanks, blanks, ← ofList_append, replicate_append_replicate, blanks]
  congr 2
  omega

theorem shift_zero (line : String) : shift 0 line = line := by
  simp [shift, blanks]

theorem shift_shift (width : Int) (groups : Nat) (line : String) :
    shift (width * groups) (shift width line) = shift (width * (groups + 1 : Nat)) line := by
  unfold shift
  by_cases hempty : line.isEmpty = true
  · simp [hempty]
  · have hmore : (blanks width ++ line).isEmpty = false := by
      simp_all
    have hsigns : (0 ≤ width * groups ∧ 0 ≤ width) ∨ (width * groups ≤ 0 ∧ width ≤ 0) := by
      by_cases hwidth : 0 ≤ width
      · exact .inl ⟨Int.mul_nonneg hwidth (Int.natCast_nonneg groups), hwidth⟩
      · exact .inr ⟨Int.mul_nonpos_of_nonpos_of_nonneg (by omega) (Int.natCast_nonneg groups), by omega⟩
    rw [if_neg hempty, hmore, if_neg Bool.false_ne_true, if_neg hempty, ← String.append_assoc,
      blanks_append _ _ hsigns]
    rw [Int.natCast_add, Int.natCast_one, Int.mul_add, Int.mul_one]

theorem Piece.allLines_shift (width : Int) (ps : List Piece) (groups : Nat) :
    (allLines width ps).map (shift (width * groups)) =
      (allMarked groups ps).map (PrintedLine.text width) := by
  induction ps using Piece.pieces_induction generalizing groups with
  | nil => rfl
  | line content ps ih | fallback condition symbol ps ih =>
    simp [allLines, lines, allMarked, marked, PrintedLine.text, ih]
  | braces opening inner ps ihinner ih | option symbol inner ps ihinner ih =>
    simp [allLines, lines, allMarked, marked, PrintedLine.text, ih, ← ihinner, shift_shift]

theorem Piece.allLines_eq (width : Int) (ps : List Piece) :
    allLines width ps = (allMarked 0 ps).map (PrintedLine.text width) := by
  have hflush : shift (width * (0 : Nat)) = id := by
    funext line
    simp [shift_zero]
  rw [← allLines_shift, hflush, List.map_id]

/-! ### Nesting -/

def Role.opensWith (bracket : Bracket) : Role → Bool
  | opens other _ => other == bracket
  | _ => false

/-- Whether lines are well nested when the lines `around` are open, the innermost first: a closing
line closes the innermost open line, which is of its kind and has its margin, and in the end no line
is open. -/
def nested {α : Type} (role : α → Role) (margin : α → Nat) : (around : List α) → List α → Bool
  | around, [] => around.isEmpty
  | around, l :: rest =>
    match role l with
    | .plain => nested role margin around rest
    | .opens .. => nested role margin (l :: around) rest
    | .closes bracket =>
      match around with
      | [] => false
      | opening :: outer =>
        (role opening).opensWith bracket && margin opening == margin l &&
          nested role margin outer rest

def groupCount (around : List PrintedLine) : Nat :=
  around.countP fun l => match l.role with
    | .opens _ indents => indents
    | _ => false

/-- Each line knows the number of groups around it, when the lines `around` are open. -/
def Placed : (around : List PrintedLine) → List PrintedLine → Prop
  | _, [] => True
  | around, l :: rest =>
    match l.role with
    | .plain => l.groups = groupCount around ∧ Placed around rest
    | .opens .. => l.groups = groupCount around ∧ Placed (l :: around) rest
    | .closes _ => l.groups = groupCount around.tail ∧ Placed around.tail rest

namespace Piece

theorem nested_append (margin : PrintedLine → Nat)
    (hmargin : ∀ a b : PrintedLine, a.groups = b.groups → margin a = margin b) (ps : List Piece)
    (groups : Nat) (around rest : List PrintedLine) :
    nested PrintedLine.role margin around (allMarked groups ps ++ rest) =
      nested PrintedLine.role margin around rest := by
  induction ps using Piece.pieces_induction generalizing groups around rest with
  | nil => rfl
  | line content ps ih => simp [allMarked, marked, nested, ih]
  | braces opening inner ps ihinner ih =>
    have hsame := hmargin ⟨.opens .brace true, groups, opening ++ " \x7b"⟩ ⟨.closes .brace, groups, "\x7d"⟩ rfl
    simp [allMarked, marked, nested, ihinner, ih, hsame, Role.opensWith]
  | option symbol inner ps ihinner ih =>
    have hsame := hmargin ⟨.opens .conditional true, groups, "#ifdef " ++ symbol⟩
      ⟨.closes .conditional, groups, "#endif"⟩ rfl
    simp [allMarked, marked, nested, ihinner, ih, hsame, Role.opensWith]
  | fallback condition symbol ps ih =>
    have hsame := hmargin ⟨.opens .conditional false, groups, "#if " ++ condition⟩
      ⟨.closes .conditional, groups, "#endif"⟩ rfl
    simp [allMarked, marked, nested, ih, hsame, Role.opensWith]

theorem nested_marked (margin : PrintedLine → Nat)
    (hmargin : ∀ a b : PrintedLine, a.groups = b.groups → margin a = margin b) (ps : List Piece) :
    nested PrintedLine.role margin [] (allMarked 0 ps) = true := by
  rw [← append_nil (allMarked 0 ps), nested_append margin hmargin]
  rfl

theorem placed_append (ps : List Piece) (groups : Nat) (around rest : List PrintedLine)
    (hgroups : groups = groupCount around) (hrest : Placed around rest) :
    Placed around (allMarked groups ps ++ rest) := by
  induction ps using Piece.pieces_induction generalizing groups around rest with
  | nil => exact hrest
  | line content ps ih => exact ⟨hgroups, ih groups around rest hgroups hrest⟩
  | braces opening inner ps ihinner ih | option symbol inner ps ihinner ih =>
    rw [allMarked, marked, cons_append, List.append_assoc, cons_append, List.append_assoc]
    refine ⟨hgroups, ihinner _ _ _ ?_ ⟨hgroups, ih groups around rest hgroups hrest⟩⟩
    rw [groupCount, countP_cons, hgroups]
    rfl
  | fallback condition symbol ps ih =>
    refine ⟨hgroups, ?_, hgroups, ih groups around rest hgroups hrest⟩
    rw [groupCount, countP_cons]
    exact hgroups

theorem placed_marked (ps : List Piece) : Placed [] (allMarked 0 ps) := by
  have hplaced := placed_append ps 0 [] [] rfl trivial
  rwa [append_nil] at hplaced

end Piece

/-! ### Nesting that the text shows -/

namespace Text

def indentation (line : String) : Nat := (line.toList.takeWhile (· == ' ')).length

def role (line : String) : Role :=
  let content := line.toList.dropWhile (· == ' ')
  if content == ['\x7d'] then .closes .brace
  else if content == "#endif".toList then .closes .conditional
  else if "#ifdef ".toList.isPrefixOf content then .opens .conditional true
  else if "#if ".toList.isPrefixOf content then .opens .conditional false
  else if content.head? == some '#' || "//".toList.isPrefixOf content then .plain
  else if content.getLast? == some '\x7b' then .opens .brace true
  else .plain

end Text

/-- The text of a line shows its part in the nesting, and its margin if it opens or closes. -/
def PrintedLine.Evident (width : Int) (l : PrintedLine) : Prop :=
  Text.role (l.text width) = l.role ∧
    (l.role ≠ .plain → indentation (l.text width) = (width * l.groups).toNat)

theorem Text.role_blanks (width : Int) (line : String) : role (blanks width ++ line) = role line := by
  have hskip : (blanks width ++ line).toList.dropWhile (· == ' ') =
      line.toList.dropWhile (· == ' ') := by
    rw [toList_append, blanks, toList_ofList]
    apply dropWhile_append_of_pos
    intro c hc
    rw [eq_of_mem_replicate hc]
    rfl
  rw [role, role, hskip]

theorem Text.role_shift (width : Int) (line : String) : role (shift width line) = role line := by
  unfold shift
  split
  · rfl
  · exact role_blanks width line

theorem Text.indentation_shift {line : String} (hc : line.toList.head? = some c) (hspace : c ≠ ' ') :
    indentation (shift width line) = width.toNat := by
  obtain ⟨rest, hline⟩ := head?_eq_some_iff.mp hc
  have hempty : line.isEmpty = false := by
    rw [Bool.eq_false_iff]
    intro hempty
    rw [String.isEmpty_iff.mp hempty] at hline
    cases hline
  rw [shift, hempty, if_neg Bool.false_ne_true, indentation, blanks, toList_append,
    toList_ofList, hline, takeWhile_append_of_pos]
  · simp [hspace]
  · intro d hd
    rw [eq_of_mem_replicate hd]
    rfl

theorem Text.role_of_head {line : String} (hline : line.toList = c :: rest) (hspace : c ≠ ' ')
    (hhash : c ≠ '#') (hbrace : c ≠ '\x7d') :
    role line = if "//".toList.isPrefixOf (c :: rest) then .plain
      else if (c :: rest).getLast? == some '\x7b' then .opens .brace true
      else .plain := by
  have hcontent : line.toList.dropWhile (· == ' ') = c :: rest := by
    rw [hline, dropWhile_cons_of_neg (by simpa using hspace)]
  rw [role, hcontent]
  simp [hhash, hbrace, Ne.symm hhash]

theorem Text.startsWord_cons {text : String} (h : startsWord text = true) :
    ∃ c rest, text.toList = c :: rest ∧ c ≠ ' ' ∧ c ≠ '#' ∧ c ≠ '\x7d' ∧ c ≠ '/' := by
  unfold startsWord at h
  cases htext : text.toList with
  | nil => simp [htext] at h
  | cons c rest =>
    rw [htext, head?_cons, Option.any_some] at h
    refine ⟨c, rest, rfl, ?_, ?_, ?_, ?_⟩ <;>
      · rintro rfl
        exact absurd h (by decide)

theorem Text.role_of_word {line : String} (last : Char) (h : startsWord line = true)
    (hlast : line.toList.getLast? = some last) :
    role line = if last == '\x7b' then .opens .brace true else .plain := by
  obtain ⟨c, rest, hline, hspace, hhash, hbrace, hslash⟩ := startsWord_cons h
  rw [role_of_head hline hspace hhash hbrace, ← hline, hlast]
  have hslashes : "//".toList.isPrefixOf line.toList = false := by
    simp [hline, List.isPrefixOf, Ne.symm hslash]
  rw [hslashes]
  simp

theorem Text.role_of_statement {line : String} (h : startsWord line = true) : role (line ++ ";") = .plain := by
  rw [role_of_word ';' (startsWord_append h ";") (by simp)]
  rfl

theorem Text.role_of_opening {line : String} (h : startsWord line = true) :
    role (line ++ " \x7b") = .opens .brace true := by
  rw [role_of_word '\x7b' (startsWord_append h " \x7b") (by simp)]
  rfl

theorem Text.role_of_remark {line : String} (h : line.toList = '/' :: '/' :: rest) : role line = .plain := by
  rw [role_of_head h (by decide) (by decide) (by decide)]
  simp

theorem Text.role_of_delimited {line : String} (h : line.toList = '/' :: '*' :: rest)
    (hlast : line.toList.getLast? = some '/') : role line = .plain := by
  rw [role_of_head h (by decide) (by decide) (by decide), ← h, hlast]
  simp [h]

/-- Whether a text starts as a directive does that neither begins nor ends a conditional part. -/
def Text.startsDirective (text : String) : Bool :=
  match text.toList with
  | '#' :: d :: _ => d != 'i' && d != 'e'
  | _ => false

theorem Text.role_of_directive {a : String} (h : startsDirective a = true) (b : String) :
    role (a ++ b) = .plain := by
  unfold startsDirective at h
  split at h
  · next d rest ha =>
    simp only [Bool.and_eq_true, bne_iff_ne] at h
    have hcontent : (a ++ b).toList.dropWhile (· == ' ') = '#' :: d :: (rest ++ b.toList) := by
      rw [toList_append, ha, cons_append, dropWhile_cons_of_neg (by decide), cons_append]
    rw [role, hcontent]
    simp [h.2, Ne.symm h.1]
  · cases h

namespace Piece

mutual
def Evident : Piece → Prop
  | line content => role content = .plain
  | braces opening inner => startsWord opening = true ∧ AllEvident inner
  | option _ inner => AllEvident inner
  | fallback .. => True

def AllEvident : List Piece → Prop
  | [] => True
  | p :: ps => p.Evident ∧ AllEvident ps
end

theorem allEvident_append {ps qs : List Piece} : AllEvident (ps ++ qs) ↔ AllEvident ps ∧ AllEvident qs := by
  induction ps with
  | nil => simp [AllEvident]
  | cons p ps ih => simp [AllEvident, ih, and_assoc]

theorem evident_of_plain (h : Text.role content = .plain) : PrintedLine.Evident width ⟨.plain, groups, content⟩ :=
  ⟨(role_shift _ content).trans h, fun hrole => absurd rfl hrole⟩

theorem evident_of_head {role : Role} (h : Text.role content = role) (hc : content.toList.head? = some c)
    (hspace : c ≠ ' ') :
    PrintedLine.Evident width ⟨role, groups, content⟩ :=
  ⟨(role_shift _ content).trans h, fun _ => indentation_shift hc hspace⟩

theorem evident_marked (width : Int) (ps : List Piece) (h : AllEvident ps) (groups : Nat) :
    ∀ l ∈ allMarked groups ps, l.Evident width := by
  induction ps using Piece.pieces_induction generalizing groups with
  | nil => simp [allMarked]
  | line content ps ih =>
    rw [allMarked, marked, singleton_append, forall_mem_cons]
    exact ⟨evident_of_plain h.1, ih h.2 groups⟩
  | braces opening inner ps ihinner ih =>
    obtain ⟨⟨hword, hinner⟩, hps⟩ := h
    obtain ⟨c, rest, hopening, hspace, -⟩ := startsWord_cons hword
    simp only [allMarked, marked, cons_append, List.append_assoc, forall_mem_cons, forall_mem_append, nil_append]
    refine ⟨evident_of_head (role_of_opening hword) ?_ hspace, ihinner hinner _,
      evident_of_head (c := '\x7d') (by decide) (by decide) (by decide), ih hps groups⟩
    simp [hopening]
  | option symbol inner ps ihinner ih =>
    obtain ⟨hinner, hps⟩ := h
    simp only [allMarked, marked, cons_append, List.append_assoc, forall_mem_cons, forall_mem_append, nil_append]
    refine ⟨evident_of_head (c := '#') ?_ ?_ (by decide), ihinner hinner _,
      evident_of_head (c := '#') (by decide) (by decide) (by decide), ih hps groups⟩
    · simp [Text.role]
    · simp
  | fallback condition symbol ps ih =>
    simp only [allMarked, marked, cons_append, forall_mem_cons, nil_append]
    refine ⟨evident_of_head (c := '#') ?_ ?_ (by decide), evident_of_plain ?_,
      evident_of_head (c := '#') (by decide) (by decide) (by decide), ih h.2 groups⟩
    · simp [Text.role]
    · simp
    · simp [role]

end Piece

theorem nested_text {ls : List PrintedLine} (around : List PrintedLine)
    (haround : ∀ l ∈ around, l.Evident width ∧ l.role ≠ .plain) (hls : ∀ l ∈ ls, l.Evident width) :
    nested role indentation (around.map (PrintedLine.text width)) (ls.map (PrintedLine.text width)) =
      nested PrintedLine.role (fun l => (width * l.groups).toNat) around ls := by
  induction ls generalizing around with
  | nil => simp [nested]
  | cons l rest ih =>
    rw [forall_mem_cons] at hls
    obtain ⟨hl, hrest⟩ := hls
    rw [map_cons, nested, nested, hl.1]
    cases hrole : l.role with
    | plain => exact ih around haround hrest
    | opens bracket indents =>
      have hopen : l.role ≠ .plain := by simp [hrole]
      exact ih (l :: around) (forall_mem_cons.mpr ⟨⟨hl, hopen⟩, haround⟩) hrest
    | closes bracket =>
      cases around with
      | nil => rfl
      | cons opening outer =>
        rw [forall_mem_cons] at haround
        obtain ⟨⟨hopening, hopens⟩, houter⟩ := haround
        simp only [map_cons]
        rw [ih outer houter hrest, hopening.1, hopening.2 hopens, hl.2 (by simp [hrole])]

theorem Piece.nested_lines (width : Int) (ps : List Piece) (h : AllEvident ps) :
    nested role indentation [] (allLines width ps) = true := by
  rw [allLines_eq]
  refine (nested_text [] (by simp) (evident_marked width ps h 0)).trans ?_
  apply nested_marked
  intro a b hgroups
  rw [hgroups]

end CirOutline
