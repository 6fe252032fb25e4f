import CirOutline.Proofs.Emission.Mentions

/-!
How far the macros of constants reach. A constant of a method becomes a line `#define n ((T) e)` in the
definition of the method, and the preprocessor knows no blocks: the macro is in force for every line after it,
until a line removes it. `CLine.Leaks` says of a text that a line after the definition uses the name and that
no line before it removes the macro, and `Passed.reach?` tells it from the statements of a program. The names
of a method are forgotten at its end but its macros are not, so a constant can reach the next method.
-/

namespace CirOutline

open List Option Passed Node

variable {b : Binding} {definitions header : List Piece} {lines : List PrintedLine} {name : String}
  {past fs : List Passed} {path : List Nat} {width : Int} {α : Type} {ns : List Node}

/-! ### Lines after a macro -/

structure NestedLine where
  role : Role
  content : String

namespace NestedLine

def read (line : String) : NestedLine := ⟨Text.role line, line⟩

def depthAfter (depth : Nat) (line : NestedLine) : Nat :=
  match line.role with
  | .opens .brace _ => depth + 1
  | .closes .brace => depth - 1
  | _ => depth

/-- What becomes of a macro in the lines after the one that defines it, where that many blocks of the definition
around it are open. Only a removal counts up to the end of the definition, and after it a use as well. -/
def reach? (name : String) : (depth : Nat) → List NestedLine → Option Fate
  | _, [] => none
  | 0, line :: rest => (CLine.fate? ⟨name, true⟩ line.content).or (reach? name 0 rest)
  | inner + 1, line :: rest =>
    (CLine.fate? ⟨name, false⟩ line.content).or (reach? name (line.depthAfter (inner + 1)) rest)

theorem reach?_zero (name : String) (lines : List NestedLine) :
    reach? name 0 lines = lines.findSome? fun line => CLine.fate? ⟨name, true⟩ line.content := by
  induction lines with
  | nil => rfl
  | cons line lines ih =>
    rw [reach?, ih, findSome?_cons]
    cases CLine.fate? ⟨name, true⟩ line.content <;> rfl

theorem reach?_open (name : String) (inner : Nat) (opening : String) (rest : List NestedLine) :
    reach? name (inner + 1) (⟨.opens .brace true, opening⟩ :: rest) =
      (CLine.fate? ⟨name, false⟩ opening).or (reach? name (inner + 1 + 1) rest) :=
  rfl

theorem reach?_close (name : String) (inner : Nat) (rest : List NestedLine) :
    reach? name (inner + 1) (⟨.closes .brace, "\x7d"⟩ :: rest) = reach? name inner rest := by
  have hbrace : CLine.fate? ⟨name, false⟩ "\x7d" = none := CLine.holds_brace.fate? _
  rw [reach?, hbrace]
  rfl

theorem reach?_conditional (name : String) (inner : Nat) (closing : Bool) (content : String)
    (rest : List NestedLine) :
    reach? name (inner + 1) (⟨.opens .conditional closing, content⟩ :: rest) =
      (CLine.fate? ⟨name, false⟩ content).or (reach? name (inner + 1) rest) :=
  rfl

theorem reach?_endif (name : String) (inner : Nat) (rest : List NestedLine) :
    reach? name (inner + 1) (⟨.closes .conditional, "#endif"⟩ :: rest) = reach? name (inner + 1) rest := by
  have hendif : CLine.fate? ⟨name, false⟩ "#endif" = none := CLine.holds_endif.fate? _
  rw [reach?, hendif]
  rfl

end NestedLine

/-- Where the reading of a text stands: the number of definitions that have ended, and that of the blocks in
braces that are open. -/
structure Nesting where
  ended : Nat
  depth : Nat

namespace Nesting

def after (place : Nesting) (line : NestedLine) : Nesting :=
  ⟨if place.depth ≠ 0 ∧ line.depthAfter place.depth = 0 then place.ended + 1 else place.ended,
    line.depthAfter place.depth⟩

def scan (place : Nesting) (lines : List NestedLine) : Nesting := lines.foldl after place

section

variable (place : Nesting)
include place

theorem scan_append (lines more : List NestedLine) : place.scan (lines ++ more) = (place.scan lines).scan more :=
  foldl_append

theorem scan_cons (line : NestedLine) (lines : List NestedLine) :
    place.scan (line :: lines) = (place.after line).scan lines :=
  rfl

theorem after_flat {line : NestedLine} (h : ∀ depth, line.depthAfter depth = depth) :
    place.after line = place := by
  rw [after, h, if_neg (by simp)]

theorem after_open (opening : String) :
    place.after ⟨.opens .brace true, opening⟩ = ⟨place.ended, place.depth + 1⟩ := by
  simp [after, NestedLine.depthAfter]

end

theorem after_close (ended inner : Nat) (content : String) :
    after ⟨ended, inner + 1 + 1⟩ ⟨.closes .brace, content⟩ = ⟨ended, inner + 1⟩ := by
  simp [after, NestedLine.depthAfter]

theorem after_end (ended : Nat) (content : String) :
    after ⟨ended, 1⟩ ⟨.closes .brace, content⟩ = ⟨ended + 1, 0⟩ := by
  simp [after, NestedLine.depthAfter]

theorem ended_le_scan (lines : List NestedLine) : ∀ place : Nesting, place.ended ≤ (place.scan lines).ended := by
  induction lines with
  | nil => intro place; exact Nat.le_refl _
  | cons line lines ih =>
    intro place
    have hstep : place.ended ≤ (place.after line).ended := by
      unfold after
      split_ifs
      · exact Nat.le_succ _
      · exact Nat.le_refl _
    exact hstep.trans (ih (place.after line))

theorem ended_lt_scan {place : Nesting} (h : place.depth ≠ 0) (line : NestedLine) (lines : List NestedLine) :
    place.ended < (place.scan (line :: lines)).ended ↔
      (place.after line).depth = 0 ∨ (place.after line).ended < ((place.after line).scan lines).ended := by
  rw [scan_cons]
  by_cases hends : line.depthAfter place.depth = 0
  · have hended : (place.after line).ended = place.ended + 1 := if_pos ⟨h, hends⟩
    have hlater := ended_le_scan lines (place.after line)
    rw [hended] at hlater
    exact iff_of_true hlater (.inl hends)
  · have hended : (place.after line).ended = place.ended := if_neg fun hboth => hends hboth.2
    rw [← hended, or_iff_right]
    exact hends

def of (lines : List String) : Nesting := scan ⟨0, 0⟩ (lines.map .read)

theorem of_append (lines more : List String) : of (lines ++ more) = (of lines).scan (more.map .read) := by
  rw [of, map_append, scan_append]
  rfl

end Nesting

open NestedLine Nesting

namespace CLine

/-- A line after the end of the definition that is open holds the name, and no line up to it removes the macro
with the name. -/
def Leaks (name : String) (before after : List String) : Prop :=
  ∃ front line back, after = front ++ line :: back ∧
    (Nesting.of before).ended < (Nesting.of (before ++ front)).ended ∧ name ∈ identifiers (tokens line) ∧
    ∀ other ∈ front ++ [line], removed? (tokens other) ≠ some name

theorem exists_cut_cons {P : List α → α → Prop} {x : α} {xs : List α} :
    (∃ front y back, x :: xs = front ++ y :: back ∧ P front y) ↔
      P [] x ∨ ∃ front y back, xs = front ++ y :: back ∧ P (x :: front) y := by
  constructor
  · rintro ⟨front, y, back, hcut, h⟩
    cases front with
    | nil =>
      obtain ⟨rfl, -⟩ := List.cons.inj hcut
      exact .inl h
    | cons first front =>
      obtain ⟨rfl, hrest⟩ := List.cons.inj hcut
      exact .inr ⟨front, y, back, hrest, h⟩
  · rintro (h | ⟨front, y, back, rfl, h⟩)
    · exact ⟨[], x, xs, rfl, h⟩
    · exact ⟨x :: front, y, back, rfl, h⟩

theorem reach?_eq_used_iff (name : String) (lines : List String) : ∀ place : Nesting,
    reach? name place.depth (lines.map .read) = some .used ↔ ∃ front line back, lines = front ++ line :: back ∧
        ((place.depth = 0 ∨ place.ended < (place.scan (front.map .read)).ended) ∧ name ∈ identifiers (tokens line) ∧
          ∀ other ∈ front ++ [line], removed? (tokens other) ≠ some name) := by
  induction lines with
  | nil => intro place; simp [reach?]
  | cons line lines ih =>
    rintro ⟨ended, depth⟩
    rw [exists_cut_cons, map_cons]
    by_cases hremoves : removed? (tokens line) = some name
    · have hfate : ∀ uses, fate? ⟨name, uses⟩ (read line).content = some .removed := fun uses =>
        if_pos hremoves
      refine iff_of_false ?_ ?_
      · cases depth with
        | zero | succ inner => simp [reach?, hfate]
      · rintro (⟨-, -, hkeeps⟩ | ⟨front, other, back, -, -, -, hkeeps⟩)
        · exact hkeeps line (by simp) hremoves
        · exact hkeeps line (by simp) hremoves
    · have hkeeps : ∀ front other, (∀ l ∈ line :: front ++ [other], removed? (tokens l) ≠ some name) ↔
          ∀ l ∈ front ++ [other], removed? (tokens l) ≠ some name := by
        intro front other
        rw [cons_append, forall_mem_cons, and_iff_right hremoves]
      cases depth with
      | zero =>
        by_cases huses : name ∈ identifiers (tokens line)
        · have hfate : fate? ⟨name, true⟩ (read line).content = some .used :=
            (if_neg hremoves).trans (if_pos ⟨huses, rfl⟩)
          refine iff_of_true ?_ (.inl ⟨.inl rfl, huses, by simpa using hremoves⟩)
          simp [reach?, hfate]
        · have hfate : fate? ⟨name, true⟩ (read line).content = none :=
            (if_neg hremoves).trans (if_neg fun h => huses h.1)
          rw [reach?, hfate, none_or, ih ⟨ended, 0⟩, or_iff_right fun h => huses h.2.1]
          simp only [hkeeps, true_or]
      | succ inner =>
        have hfate : fate? ⟨name, false⟩ (read line).content = none :=
          (if_neg hremoves).trans (if_neg fun h => by cases h.2)
        -- the definition goes on after the line, or it ends there and every line from then on counts
        have hends : ∀ front : List String,
            (inner + 1 = 0 ∨ ended < (scan ⟨ended, inner + 1⟩ ((line :: front).map .read)).ended) ↔
              (Nesting.after ⟨ended, inner + 1⟩ (.read line)).depth = 0 ∨
                (Nesting.after ⟨ended, inner + 1⟩ (.read line)).ended <
                  ((Nesting.after ⟨ended, inner + 1⟩ (.read line)).scan (front.map .read)).ended := fun front =>
          (or_iff_right (Nat.succ_ne_zero inner)).trans
            (@ended_lt_scan ⟨ended, inner + 1⟩ (Nat.succ_ne_zero inner) (.read line) (front.map .read))
        rw [reach?, hfate, none_or, or_iff_right (by simp [scan])]
        simp only [hkeeps, hends]
        exact ih (Nesting.after ⟨ended, inner + 1⟩ (.read line))

theorem leaks_iff {before after : List String} (h : (Nesting.of before).depth ≠ 0) : Leaks name before after ↔
      reach? name (Nesting.of before).depth (after.map .read) = some .used := by
  rw [reach?_eq_used_iff, Leaks]
  simp only [of_append, h, false_or]

end CLine

namespace Piece

theorem scan_pieces (ps : List Piece) : ∀ ended inner,
    scan ⟨ended, inner + 1⟩ (allReading mk ps) = ⟨ended, inner + 1⟩ := by
  induction ps using Piece.pieces_induction with
  | nil => intro ended inner; rfl
  | line content ps ih =>
    intro ended inner
    rw [allReading, reading, singleton_append, scan_cons, after_flat _ fun _ => rfl, ih]
  | braces opening block ps ihblock ih =>
    intro ended inner
    rw [allReading, reading, scan_append, scan_cons, after_open, scan_append, ihblock, scan_cons, after_close]
    exact ih ended inner
  | option symbol block ps ihblock ih =>
    intro ended inner
    rw [allReading, reading, scan_append, scan_cons, after_flat _ fun _ => rfl,
      scan_append, ihblock, scan_cons, after_flat _ fun _ => rfl]
    exact ih ended inner
  | fallback condition symbol ps ih =>
    intro ended inner
    rw [allReading, reading, scan_append, scan_cons, after_flat _ fun _ => rfl,
      scan_cons, after_flat _ fun _ => rfl, scan_cons, after_flat _ fun _ => rfl]
    exact ih ended inner

theorem reach?_pieces (name : String) (ps : List Piece) : ∀ (inner : Nat) (rest : List NestedLine),
    reach? name (inner + 1) (allReading mk ps ++ rest) =
      (fate? ⟨name, false⟩ ps).or (reach? name (inner + 1) rest) := by
  induction ps using Piece.pieces_induction with
  | nil => intro inner rest; rfl
  | line content ps ih =>
    intro inner rest
    rw [fate?_cons, fate?_line, Option.or_assoc, ← ih]
    rfl
  | braces opening block ps ihblock ih =>
    intro inner rest
    have hlines : allReading mk (.braces opening block :: ps) ++ rest =
        ⟨.opens .brace true, opening ++ " \x7b"⟩ :: (allReading mk block ++
          ⟨.closes .brace, "\x7d"⟩ :: (allReading mk ps ++ rest)) := by
      simp [allReading, reading]
    rw [hlines, reach?_open]
    calc (CLine.fate? ⟨name, false⟩ (opening ++ " \x7b")).or (reach? name (inner + 1 + 1)
          (allReading mk block ++ ⟨.closes .brace, "\x7d"⟩ :: (allReading mk ps ++ rest)))
        = (CLine.fate? ⟨name, false⟩ (opening ++ " \x7b")).or ((fate? ⟨name, false⟩ block).or
            (reach? name (inner + 1) (allReading mk ps ++ rest))) := by
          rw [ihblock, reach?_close]
      _ = (fate? ⟨name, false⟩ [.braces opening block]).or
            ((fate? ⟨name, false⟩ ps).or (reach? name (inner + 1) rest)) := by
          rw [ih, fate?_block, Option.or_assoc]
      _ = (fate? ⟨name, false⟩ (.braces opening block :: ps)).or (reach? name (inner + 1) rest) := by
          rw [fate?_cons _ _ ps, Option.or_assoc]
  | option symbol block ps ihblock ih =>
    intro inner rest
    have hlines : allReading mk (.option symbol block :: ps) ++ rest =
        ⟨.opens .conditional true, "#ifdef " ++ symbol⟩ :: (allReading mk block ++
          ⟨.closes .conditional, "#endif"⟩ :: (allReading mk ps ++ rest)) := by
      simp [allReading, reading]
    rw [hlines, reach?_conditional, ihblock, reach?_endif, ih, fate?_cons _ _ ps,
      fate?_group, Option.or_assoc, Option.or_assoc]
  | fallback condition symbol ps ih =>
    intro inner rest
    have hlines : allReading mk (.fallback condition symbol :: ps) ++ rest =
        ⟨.opens .conditional false, "#if " ++ condition⟩ :: ⟨.plain, "  #define " ++ symbol⟩ ::
          ⟨.closes .conditional, "#endif"⟩ :: (allReading mk ps ++ rest) := rfl
    have hdefine : ∀ more, reach? name (inner + 1) (⟨.plain, "  #define " ++ symbol⟩ :: more) =
        (CLine.fate? ⟨name, false⟩ ("  #define " ++ symbol)).or (reach? name (inner + 1) more) :=
      fun _ => rfl
    rw [hlines, reach?_conditional, hdefine, reach?_endif, ih, fate?_cons, fate?_choice,
      Option.or_assoc, Option.or_assoc]

theorem findSome?_lines (w : Watch) (ps : List Piece) :
    (allReading mk ps).findSome? (fun line => CLine.fate? w line.content) = fate? w ps := by
  rw [fate?, ← map_allMarked _ ps 0, ← map_allMarked _ ps 0, findSome?_map, findSome?_map]
  rfl

/-- Pieces of a definition hold a line that defines a macro, and the lines after it do to the macro what is
told. -/
def Fixes (name line : String) (ps : List Piece) (fate : Option Fate) : Prop :=
  ∃ before after, allReading mk ps = before ++ ⟨.plain, line⟩ :: after ∧ ∀ ended inner, ∃ deep,
    scan ⟨ended, inner + 1⟩ before = ⟨ended, deep + 1⟩ ∧ ∀ rest,
      reach? name (deep + 1) (after ++ rest) = fate.or (reach? name (inner + 1) rest)

namespace Fixes

variable {line : String} {ps : List Piece} {fate : Option Fate}

theorem single (name line : String) : Fixes name line [.line line] none :=
  ⟨[], [], rfl, fun _ inner => ⟨inner, rfl, fun _ => rfl⟩⟩

section

variable (h : Fixes name line ps fate)
include h

theorem append (qs : List Piece) : Fixes name line (ps ++ qs) (fate.or (fate? ⟨name, false⟩ qs)) := by
  obtain ⟨before, after, hlines, hbefore⟩ := h
  refine ⟨before, after ++ allReading mk qs, ?_, fun ended inner => ?_⟩
  · rw [allReading_append, hlines, append_assoc, cons_append]
  · obtain ⟨deep, hscan, hreach⟩ := hbefore ended inner
    refine ⟨deep, hscan, fun rest => ?_⟩
    rw [append_assoc, hreach, reach?_pieces, Option.or_assoc]

theorem prepend (qs : List Piece) : Fixes name line (qs ++ ps) fate := by
  obtain ⟨before, after, hlines, hbefore⟩ := h
  refine ⟨allReading mk qs ++ before, after, ?_, fun ended inner => ?_⟩
  · rw [allReading_append, hlines, append_assoc]
  · rw [scan_append, scan_pieces]
    exact hbefore ended inner

theorem braces (opening : String) : Fixes name line [.braces opening ps] fate := by
  obtain ⟨before, after, hlines, hbefore⟩ := h
  refine ⟨⟨.opens .brace true, opening ++ " \x7b"⟩ :: before, after ++ [⟨.closes .brace, "\x7d"⟩], ?_,
    fun ended inner => ?_⟩
  · rw [allReading, allReading, reading, hlines, append_nil, append_assoc]
    rfl
  · obtain ⟨deep, hscan, hreach⟩ := hbefore ended (inner + 1)
    rw [scan_cons, after_open]
    refine ⟨deep, hscan, fun rest => ?_⟩
    rw [append_assoc, hreach, singleton_append, reach?_close]

theorem option (symbol : String) : Fixes name line [.option symbol ps] fate := by
  obtain ⟨before, after, hlines, hbefore⟩ := h
  refine ⟨⟨.opens .conditional true, "#ifdef " ++ symbol⟩ :: before, after ++ [⟨.closes .conditional, "#endif"⟩], ?_,
    fun ended inner => ?_⟩
  · rw [allReading, allReading, reading, hlines, append_nil, append_assoc]
    rfl
  · obtain ⟨deep, hscan, hreach⟩ := hbefore ended inner
    rw [scan_cons, after_flat _ fun _ => rfl]
    refine ⟨deep, hscan, fun rest => ?_⟩
    rw [append_assoc, hreach, singleton_append, reach?_endif]

theorem definition (head : String) (qs : List Piece) :
    ∃ before after, allReading mk (.braces head ps :: qs) = before ++ ⟨.plain, line⟩ :: after ∧
      ∀ ended, ∃ deep, scan ⟨ended, 0⟩ before = ⟨ended, deep + 1⟩ ∧
        reach? name (deep + 1) after = fate.or (fate? ⟨name, true⟩ qs) := by
  obtain ⟨before, after, hlines, hbefore⟩ := h
  refine ⟨⟨.opens .brace true, head ++ " \x7b"⟩ :: before,
    after ++ ⟨.closes .brace, "\x7d"⟩ :: allReading mk qs, ?_, fun ended => ?_⟩
  · rw [allReading, reading, hlines]
    simp
  · obtain ⟨deep, hscan, hreach⟩ := hbefore ended 0
    rw [scan_cons, after_open]
    refine ⟨deep, hscan, ?_⟩
    rw [hreach, reach?_close, reach?_zero, findSome?_lines]

end

end Fixes

theorem scan_definition (ended : Nat) (head : String) (inner : List Piece) :
    scan ⟨ended, 0⟩ (reading mk (.braces head inner)) = ⟨ended + 1, 0⟩ := by
  rw [reading, scan_cons, after_open, scan_append, scan_pieces]
  exact after_end ended "\x7d"

end Piece

/-! ### Constants of blocks -/

def CLine.constant (name type value : String) : String :=
  "#define " ++ name ++ " ((" ++ type ++ ") " ++ value ++ ")"

theorem cut_append {xs ys earlier later : List α} {x : α} (h : xs ++ ys = earlier ++ x :: later) :
    (∃ rest, xs = earlier ++ x :: rest ∧ later = rest ++ ys) ∨
      ∃ front, earlier = xs ++ front ∧ ys = front ++ x :: later := by
  rcases append_eq_append_iff.mp h with ⟨front, hearlier, hys⟩ | ⟨rest, hxs, hrest⟩
  · exact .inr ⟨front, hearlier, hys⟩
  · cases rest with
    | nil => exact .inr ⟨[], by simpa using hxs.symm, hrest.symm⟩
    | cons first rest =>
      obtain ⟨rfl, rfl⟩ := List.cons.inj hrest
      exact .inl ⟨rest, hxs, rfl⟩

namespace Printer

variable {options : Options} {parent : List Nat} {index : Nat} {how : Option Mode} {n : Node} {c : Context}
  {pieces : List Piece} {expression : List Token} {earlier later : List Passed} {f : Passed}

theorem Says.assignment (hn : Stands past parent index how n c) (hwording : Says options c n pieces)
    (hwalk : n.walk (index :: parent) = earlier ++ f :: later) (hf : f.statement = .assignment name expression) :
    earlier = [] ∧ f = ⟨index :: parent, n.statement⟩ ∧ later = [] := by
  have hmem : f ∈ n.walk (index :: parent) := by simp [hwalk]
  have hclosed : n.statement.opensBlock = false := by
    cases hwording with
    | remarks hremark =>
      generalize n.statement = s at hremark
      cases s <;> first | rfl | cases hremark
    | named | array =>
      rw [hn.walk_named rfl] at hmem
      rcases mem_pair.mp hmem with rfl | rfl <;> cases hf
    | _ => rfl
  rw [hn.walk_eq hclosed] at hwalk
  cases earlier with
  | nil =>
    obtain ⟨rfl, rfl⟩ := List.cons.inj hwalk
    exact ⟨rfl, rfl, rfl⟩
  | cons first earlier => simp at hwalk

theorem Says.constant (hn : Stands past parent index how n c) (hwording : Says options c n pieces)
    (hs : n.statement = .assignment name expression) (hmeaning : resolve past parent (some name) = some b)
    (hb : b.isMutable = false) :
    pieces = [.line (CLine.constant name b.type.text (Expression.render expression))] := by
  obtain ⟨s, place, body⟩ := n
  obtain rfl : s = .assignment name expression := hs
  have hlookup : c.scope.lookup (some name) = some b := (hn.told.agrees.lookup _).trans hmeaning
  cases hwording with
  | remarks hremark => cases hremark
  | assigns hfound hmutable =>
    obtain rfl := Option.some.inj (hlookup.symm.trans hfound)
    exact absurd (hmutable.symm.trans hb) (by decide)
  | fixes hfound =>
    obtain rfl := Option.some.inj (hlookup.symm.trans hfound)
    rfl

theorem cut_walk (h : n.walk path = earlier ++ f :: later) (hf : n.statement ≠ f.statement) :
    ∃ front, earlier = ⟨path, n.statement⟩ :: front ∧ walkAll path 0 n.body = front ++ f :: later := by
  rw [walk_split] at h
  cases earlier with
  | nil =>
    obtain ⟨rfl, -⟩ := List.cons.inj h
    exact absurd rfl hf
  | cons first front =>
    obtain ⟨rfl, hbody⟩ := List.cons.inj h
    exact ⟨front, rfl, hbody⟩

theorem Prints.fixes_first {line : String} {first rest : List Piece}
    (hrest : Prints options ((n.walk (index :: parent)).reverse ++ past) parent (index + 1) how ns rest)
    (hmode : Chosen past parent how) (hwalk : n.walk (index :: parent) = earlier ++ f :: later)
    (hfirst : Piece.Fixes name line first (allFate? ⟨name, false⟩ (f :: (earlier.reverse ++ past)) later)) :
    Piece.Fixes name line (first ++ rest) (allFate? ⟨name, false⟩ (f :: (earlier.reverse ++ past))
      (later ++ walkAll parent (index + 1) ns)) := by
  have hpast : later.reverse ++ f :: (earlier.reverse ++ past) = (n.walk (index :: parent)).reverse ++ past := by
    simp [hwalk]
  rw [allFate?_append, hpast, ← hrest.fate ⟨name, false⟩ (hmode.next n index)]
  exact hfirst.append rest

theorem Prints.constant (hprints : Prints options past parent index how ns pieces)
    (hb : b.isMutable = false) : Chosen past parent how → ∀ {earlier later : List Passed} {f : Passed},
    walkAll parent index ns = earlier ++ f :: later → f.statement = .assignment name expression →
    resolve (earlier.reverse ++ past) f.path.tail (some name) = some b →
    Piece.Fixes name (CLine.constant name b.type.text (Expression.render expression)) pieces
      (allFate? ⟨name, false⟩ (f :: (earlier.reverse ++ past)) later) := by
  induction hprints with
  | nil =>
    intro _ earlier later f hwalk
    simp [walkAll] at hwalk
  | @leaf past parent index how n ns c pieces rest hn hwording hrest ih =>
    intro hmode earlier later f hwalk hf hmeaning
    rw [walkAll] at hwalk
    rcases cut_append hwalk with ⟨tail, hown, rfl⟩ | ⟨front, rfl, hlater⟩
    · obtain ⟨rfl, rfl, rfl⟩ := hwording.assignment hn hown hf
      rw [hwording.constant hn hf hmeaning hb]
      exact hrest.fixes_first hmode hown (.single _ _)
    · rw [reverse_append, append_assoc] at hmeaning ⊢
      exact (ih (hmode.next _ _) hlater hf hmeaning).prepend pieces
  | @block past parent index how how' n ns c inner pieces rest hn hwraps _ _ hrest ihinner ih =>
    intro hmode earlier later f hwalk hf hmeaning
    rw [walkAll] at hwalk
    rcases cut_append hwalk with ⟨tail, hown, rfl⟩ | ⟨front, rfl, hlater⟩
    · refine hrest.fixes_first hmode hown ?_
      obtain ⟨s, place, body⟩ := n
      have hne : s ≠ f.statement := by
        rw [hf]
        rintro rfl
        cases hwraps with
        | braces hhead => cases hhead
      obtain ⟨front, rfl, hbody⟩ := cut_walk hown hne
      rw [reverse_cons, append_assoc] at hmeaning ⊢
      cases hwraps with
      | braces => exact (ihinner (.none _ _) hbody hf hmeaning).braces _
      | choose hfound => exact ihinner (.entering rfl hfound _ _) hbody hf hmeaning
      | option => exact (ihinner (.none _ _) hbody hf hmeaning).option _
    · rw [reverse_append, append_assoc] at hmeaning ⊢
      exact (ih (hmode.next _ _) hlater hf hmeaning).prepend pieces

end Printer

/-! ### Constants of methods -/

theorem findSome?_congr {β : Type} {f g : α → Option β} {xs : List α} (h : ∀ x ∈ xs, f x = g x) :
    xs.findSome? f = xs.findSome? g := by
  induction xs with
  | nil => rfl
  | cons x xs ih =>
    rw [forall_mem_cons] at h
    rw [findSome?_cons, findSome?_cons, h.1, ih h.2]

namespace Passed

instance (past : List Passed) (f : Passed) : Decidable (f.Outside past) :=
  inferInstanceAs (Decidable (∀ g ∈ f :: past, _))

/-- What a statement does with a name in the definitions of methods. -/
def definitionFate? (w : Watch) (x : List Passed × Passed) : Option Fate :=
  if x.2.Outside x.1 then none else fate? w x

/-- What becomes of the macro of a constant in the statements after it. Those of the same method can remove
the macro, and those of other methods can use it as well. -/
def reach? (name : String) (f : Passed) (past later : List Passed) : Option Fate :=
  (steps past later).findSome? fun x =>
    definitionFate? ⟨name, x.2.path.getLast? != f.path.getLast?⟩ x

def methods (fs : List Passed) : Nat := fs.countP fun g => g.statement.isMethod

theorem methods_append (fs gs : List Passed) : methods (fs ++ gs) = methods fs + methods gs :=
  countP_append

theorem methods_walkAll (h : ∀ s ∈ statements ns, s.isMethod = false) (parent : List Nat)
    (index : Nat) (hfs : fs ⊆ walkAll parent index ns) : methods fs = 0 := by
  rw [methods, countP_eq_zero]
  intro f hf
  rw [h f.statement (statement_mem_of_walkAll ns parent index f (hfs hf))]
  decide

theorem methods_method {n : Node} (hmethod : n.statement.isMethod = true)
    (hbody : ∀ s ∈ statements n.body, s.isMethod = false) (path : List Nat)
    (hfs : fs ⊆ walkAll path 0 n.body) : methods (⟨path, n.statement⟩ :: fs) = 1 := by
  have hnone : fs.countP (fun g => g.statement.isMethod) = 0 := methods_walkAll hbody path 0 hfs
  rw [methods, countP_cons, hnone, if_pos hmethod]

theorem mem_past_of_mem_steps {fs : List Passed} {g : Passed} (hg : g ∈ past) {x : List Passed × Passed}
    (hx : x ∈ steps past fs) : g ∈ x.1 := by
  induction fs generalizing past with
  | nil => cases hx
  | cons f fs ih =>
    rcases mem_cons.mp hx with rfl | hx
    · exact hg
    · exact ih (mem_cons_of_mem f hg) hx

theorem getLast?_path {i : Nat} (h : [i] <:+ path) : path.getLast? = some i := by
  obtain ⟨front, rfl⟩ := h
  exact getLast?_concat

end Passed

namespace Printer

variable {options : Options} {index : Nat} {n : Node}

theorem not_outside_of_walk (hmethod : n.statement.isMethod = true) :
    ∀ x ∈ steps past (n.walk [index]), ¬ x.2.Outside x.1 := by
  intro x hx houtside
  obtain ⟨hmem, -⟩ := of_mem_steps hx
  refine houtside ⟨[index], n.statement⟩ ?_ hmethod (suffix_of_mem_walk hmem)
  rw [walk_split, steps, mem_cons] at hx
  rcases hx with rfl | hx
  · exact mem_cons_self
  · exact mem_cons_of_mem _ (mem_past_of_mem_steps mem_cons_self hx)

theorem definitionFate?_method (hmethod : n.statement.isMethod = true) (w : Watch) :
    (steps past (n.walk [index])).findSome? (definitionFate? w) = allFate? w past (n.walk [index]) :=
  findSome?_congr fun x hx => if_neg (not_outside_of_walk hmethod x hx)

theorem definitionFate?_other (h : Before index past) (hmethod : n.statement.isMethod = false)
    (hmethods : ∀ s ∈ statements n.body, s.isMethod = false) (w : Watch) :
    (steps past (n.walk [index])).findSome? (definitionFate? w) = none := by
  have hall : ∀ s ∈ statements [n], s.isMethod = false :=
    forall_statements.mpr (forall_mem_singleton.mpr ⟨hmethod, hmethods⟩)
  exact findSome?_eq_none_iff.mpr fun x hx => if_pos (outside_of_walk h hall x hx)

theorem PrintsProgram.fate (hprints : PrintsProgram options past index ns header definitions) (w : Watch) :
    MethodsOutside ns → Before index past →
    Piece.fate? w definitions =
      (steps past (walkAll [] index ns)).findSome? (definitionFate? w) := by
  induction hprints with
  | nil => intro _ _; rfl
  | @method past index name parameters returnType place body ns c inside head inner header definitions hn hhead
      hinner _ ih =>
      intro hmethods hbefore
      have hrest := ih (forall_mem_cons.mp hmethods).2 (hbefore.next _)
      have hown : Piece.fate? w [.braces head inner] = allFate? w past
          ((Node.mk (.method name parameters returnType) place body).walk [index]) := by
        rw [hn.fate_method hhead, hinner.fate w (.none _ _), ← allFate?_cons]
        rfl
      calc Piece.fate? w (.braces head inner :: definitions)
          = (Piece.fate? w [.braces head inner]).or (Piece.fate? w definitions) := Piece.fate?_cons w _ _
        _ = _ := by
            rw [hown, hrest, ← definitionFate?_method rfl, ← findSome?_append, ← steps_walk]
  | @other past index n ns pieces header definitions hmethod _ _ ih =>
    intro hmethods hbefore
    obtain ⟨hone, hothers⟩ := forall_mem_cons.mp hmethods
    rw [steps_walk, findSome?_append, definitionFate?_other hbefore hmethod hone, none_or,
      ih hothers (hbefore.next _)]

theorem intersperse_definitions (p : Piece) (ps : List Piece) : ∃ gap,
    (p :: ps).intersperse (.line "") = p :: (gap ++ ps.intersperse (.line "")) ∧ (∀ w, Piece.fate? w gap = none) ∧
      ∀ place : Nesting, place.scan (Piece.allReading mk gap) = place := by
  have hblank : CLine.tokens "" = [] := by simp [CLine.tokens, CToken.lex]
  cases ps with
  | nil => exact ⟨[], rfl, fun _ => rfl, fun _ => rfl⟩
  | cons q ps =>
    refine ⟨[.line ""], rfl, fun w => ?_, fun place => place.after_flat fun _ => rfl⟩
    rw [Piece.fate?_line, (CLine.holds_of_empty hblank).fate?]
    rfl

theorem fate?_intersperse (w : Watch) (ps : List Piece) :
    Piece.fate? w (ps.intersperse (.line "")) = Piece.fate? w ps := by
  induction ps with
  | nil => rfl
  | cons p ps ih =>
    obtain ⟨gap, hgap, hnone, -⟩ := intersperse_definitions p ps
    rw [hgap, Piece.fate?_cons, Piece.fate?_append, hnone, none_or, ih, ← Piece.fate?_cons]

theorem reach?_method {earlier tail : List Passed} {f : Passed} (name : String)
    (hmethod : n.statement.isMethod = true) (hwalk : n.walk [index] = earlier ++ f :: tail) (ns : List Node) :
    reach? name f (f :: (earlier.reverse ++ past)) (tail ++ walkAll [] (index + 1) ns) =
      (allFate? ⟨name, false⟩ (f :: (earlier.reverse ++ past)) tail).or
        ((steps ((n.walk [index]).reverse ++ past) (walkAll [] (index + 1) ns)).findSome?
          (definitionFate? ⟨name, true⟩)) := by
  have hlast : ∀ g ∈ n.walk [index], g.path.getLast? = some index := fun g hg =>
    getLast?_path (suffix_of_mem_walk hg)
  have hf : f.path.getLast? = some index := hlast f (by simp [hwalk])
  have hpast : tail.reverse ++ f :: (earlier.reverse ++ past) = (n.walk [index]).reverse ++ past := by
    simp [hwalk]
  rw [Passed.reach?, steps_append, findSome?_append, hpast]
  refine congrArg₂ Option.or (findSome?_congr fun x hx => ?_) (findSome?_congr fun x hx => ?_)
  · have hmem : x ∈ steps past (n.walk [index]) := by
      rw [hwalk, steps_append, steps]
      exact mem_append_right _ (mem_cons_of_mem _ hx)
    have hsame : (x.2.path.getLast? != f.path.getLast?) = false := by
      rw [hf, hlast x.2 (of_mem_steps hmem).1]
      simp
    rw [hsame]
    exact if_neg (not_outside_of_walk hmethod x hmem)
  · obtain ⟨j, hj, -, hpath⟩ := exists_of_mem_walkAll ns _ _ x.2 (of_mem_steps hx).1
    have hother : (x.2.path.getLast? != f.path.getLast?) = true := by
      rw [hf, getLast?_path hpath, bne_iff_ne]
      intro hsame
      have := Option.some.inj hsame
      omega
    rw [hother]

/-- The definitions hold the line of a constant of a method, in the definition of that method, and what comes
after the line does to its macro what the statements after the constant do. -/
theorem PrintsProgram.constant {expression : List Token}
    (hprints : PrintsProgram options past index ns header definitions) (hb : b.isMutable = false) :
    MethodsOutside ns → Before index past →
    ∀ {earlier later : List Passed} {f : Passed}, walkAll [] index ns = earlier ++ f :: later →
    f.statement = .assignment name expression → InMethod (earlier.reverse ++ past) f.path.tail →
    resolve (earlier.reverse ++ past) f.path.tail (some name) = some b →
    ∃ before after, Piece.allReading mk (definitions.intersperse (.line "")) =
        before ++ ⟨.plain, CLine.constant name b.type.text (Expression.render expression)⟩ :: after ∧
      ∀ ended, ∃ last deep, scan ⟨ended, 0⟩ before = ⟨last, deep + 1⟩ ∧ last + 1 = ended + methods earlier ∧
        NestedLine.reach? name (deep + 1) after =
          reach? name f (f :: (earlier.reverse ++ past)) later := by
  induction hprints with
  | nil =>
    intro _ _ earlier later f hwalk
    simp [walkAll] at hwalk
  | @method past index method parameters returnType place body ns c inside head inner header definitions hn hhead
      hinner hrest ih =>
      intro hmethods hbefore earlier later f hwalk hf hin hmeaning
      obtain ⟨hbodyMethods, hothers⟩ := forall_mem_cons.mp hmethods
      obtain ⟨gap, hgap, hnone, hflat⟩ := intersperse_definitions (.braces head inner) definitions
      rw [walkAll] at hwalk
      rw [hgap]
      rcases cut_append hwalk with ⟨tail, hown, rfl⟩ | ⟨front, rfl, hlater⟩
      · have hne : (Node.mk (.method method parameters returnType) place body).statement ≠ f.statement := by
          rw [hf]
          rintro ⟨⟩
        rw [reach?_method name rfl hown, ← hrest.fate _ hothers (hbefore.next _)]
        obtain ⟨front, rfl, hbody⟩ := cut_walk hown hne
        rw [reverse_cons, append_assoc] at hmeaning ⊢
        obtain ⟨before, after, hlines, hscan⟩ := (hinner.constant hb (.none _ _) hbody hf hmeaning).definition head
          (gap ++ definitions.intersperse (.line ""))
        rw [Piece.fate?_append, hnone, none_or, fate?_intersperse] at hscan
        have hcount := methods_method rfl hbodyMethods [index] (hbody ▸ subset_append_left front (f :: tail))
        refine ⟨before, after, hlines, fun ended => ?_⟩
        obtain ⟨deep, hended, hreach⟩ := hscan ended
        exact ⟨ended, deep, hended, by rw [hcount], hreach⟩
      · rw [reverse_append, append_assoc] at hin hmeaning ⊢
        obtain ⟨before, after, hlines, hscan⟩ := ih hothers (hbefore.next _) hlater hf hin hmeaning
        have hcount := methods_method rfl hbodyMethods [index] (List.Subset.refl _)
        rw [← walk_split] at hcount
        refine ⟨Piece.allReading NestedLine.mk (.braces head inner :: gap) ++ before, after, ?_, fun ended => ?_⟩
        · rw [← cons_append, Piece.allReading_append, hlines, append_assoc]
        · rw [Piece.allReading, scan_append, scan_append, Piece.scan_definition, hflat,
            methods_append, hcount, ← Nat.add_assoc]
          exact hscan (ended + 1)
  | @other past index n ns pieces header definitions hmethod _ _ ih =>
    intro hmethods hbefore earlier later f hwalk hf hin hmeaning
    obtain ⟨hone, hothers⟩ := forall_mem_cons.mp hmethods
    have hall : ∀ s ∈ statements [n], s.isMethod = false :=
      forall_statements.mpr (forall_mem_singleton.mpr ⟨hmethod, hone⟩)
    rw [walkAll] at hwalk
    rcases cut_append hwalk with ⟨tail, hown, rfl⟩ | ⟨front, rfl, hlater⟩
    · have hmem : (earlier.reverse ++ past, f) ∈ steps past (n.walk [index]) := by
        rw [hown, steps_append, steps]
        exact mem_append_right _ mem_cons_self
      obtain ⟨m, hm, hismethod, hpath⟩ := hin
      exact absurd (hpath.trans (tail_suffix _))
        (outside_of_walk hbefore hall _ hmem m (mem_cons_of_mem _ hm) hismethod)
    · rw [reverse_append, append_assoc] at hin hmeaning ⊢
      have hnone : methods (n.walk [index]) = 0 := by
        refine methods_walkAll hall [] index ?_
        rw [walkAll, walkAll, append_nil]
        exact List.Subset.refl _
      rw [methods_append, hnone, Nat.zero_add]
      exact ih hothers (hbefore.next _) hlater hf hin hmeaning

end Printer

/-! ### From pieces to text -/

namespace Piece

theorem scan_text (h : ∀ l ∈ lines, l.Evident width) (place : Nesting) :
    place.scan ((lines.map (PrintedLine.text width)).map .read) =
      place.scan (lines.map fun l => ⟨l.role, l.content⟩) := by
  induction lines generalizing place with
  | nil => rfl
  | cons l lines ih =>
    rw [forall_mem_cons] at h
    have hline : place.after (.read (l.text width)) = place.after ⟨l.role, l.content⟩ := by
      rw [NestedLine.read, h.1.1]
      rfl
    rw [map_cons, map_cons, map_cons, scan_cons, scan_cons, hline, ih h.2]

theorem reach?_text (h : ∀ l ∈ lines, l.Evident width) (name : String) (depth : Nat) :
    reach? name depth ((lines.map (PrintedLine.text width)).map .read) =
      reach? name depth (lines.map fun l => ⟨l.role, l.content⟩) := by
  induction lines generalizing depth with
  | nil => rfl
  | cons l lines ih =>
    rw [forall_mem_cons] at h
    have hfate : ∀ w, CLine.fate? w (read (l.text width)).content = CLine.fate? w l.content := fun w =>
      CLine.fate?_shift w _ l.content
    have hdepth : ∀ depth, (read (l.text width)).depthAfter depth =
        depthAfter depth ⟨l.role, l.content⟩ := by
      intro depth
      rw [NestedLine.read, h.1.1]
      rfl
    cases depth with
    | zero =>
      rw [map_cons, map_cons, map_cons, NestedLine.reach?, NestedLine.reach?, hfate, ih h.2]
    | succ inner =>
      rw [map_cons, map_cons, map_cons, NestedLine.reach?, NestedLine.reach?, hfate, hdepth, ih h.2]

theorem cut_text (width : Int) {ps : List Piece} (h : AllEvident ps) {before after : List NestedLine}
    {content : String} (hlines : allReading mk ps = before ++ ⟨.plain, content⟩ :: after) :
    ∃ front gap back, allLines width ps = front ++ shift gap content :: back ∧
      (∀ place : Nesting, place.scan ((front ++ [shift gap content]).map .read) = place.scan before) ∧
      ∀ name depth, reach? name depth (back.map .read) = reach? name depth after := by
  have hevident := evident_marked width ps h 0
  rw [← map_allMarked mk ps 0] at hlines
  obtain ⟨first, others, hmarked, rfl, hothers⟩ := map_eq_append_iff.mp hlines
  obtain ⟨l, last, rfl, hl, rfl⟩ := map_eq_cons_iff.mp hothers
  obtain ⟨hrole, hcontent⟩ := mk.inj hl
  rw [hmarked, forall_mem_append, forall_mem_cons] at hevident
  have hflat : ∀ depth, (read (l.text width)).depthAfter depth = depth := by
    intro depth
    rw [NestedLine.read, hevident.2.1.1, hrole]
    rfl
  have htext : shift (width * l.groups) content = l.text width := by rw [PrintedLine.text, hcontent]
  refine ⟨first.map (PrintedLine.text width), width * l.groups, last.map (PrintedLine.text width), ?_,
    fun place => ?_, reach?_text hevident.2.2⟩
  · rw [allLines_eq, hmarked, map_append, map_cons, htext]
  · rw [htext, map_append, scan_append, scan_text hevident.1]
    exact after_flat _ hflat

end Piece

theorem Seen.inMethod_of_latestLocal {parent : List Nat} {name : Option String}
    (h : latestLocal (see past) parent name = some b) : InMethod past parent := by
  obtain ⟨q, -, hq⟩ := exists_of_findSome?_eq_some h
  split_ifs at hq with hcounts
  simp only [Bool.and_eq_true] at hcounts
  obtain ⟨m, hm, hshares⟩ := List.any_eq_true.mp hcounts.1.1
  simp only [Bool.and_eq_true] at hshares
  exact ⟨m.toPassed, mem_of_mem_see hm, hshares.2.1, isSuffixOf_iff_suffix.mp hshares.2.2⟩

/-- Each assignment to a constant of a method becomes a line that defines a macro, in the definition of the
method. A line after that definition uses the name with no removal of the macro before it exactly if the
statements do: a later method mentions the name, and no statement before gives up an option with the name for
its symbol. -/
theorem method_constant_leaks_iff {options : Options} {source file : String} {lines : List String}
    {tokens : List Token} {program : Program} {start e : Emitter} {output : String}
    (htokens : tokenize source file = .ok tokens)
    (hread : readProgram tokens file lines = .ok program) (hstart : options.emitter lines = .ok start)
    (hrun : emitProgram start options program.nodes = (.ok output, e)) :
    output = e.output options.includes ∧
    ∀ (earlier later : List Passed) (f : Passed) (name : String) (expression : List Token) (b : Binding),
      Node.walkAll [] 0 program.nodes = earlier ++ f :: later → f.statement = .assignment name expression →
      Seen.latestLocal (Passed.see earlier.reverse) f.path.tail (some name) = some b → b.isMutable = false →
      ∃ before line after, e.code = before ++ line :: after ∧
        (∃ gap, line = shift gap (CLine.constant name b.type.text (Expression.render expression))) ∧
        (Nesting.of (before ++ [line])).ended + 1 = Passed.methods earlier ∧
        (CLine.Leaks name (before ++ [line]) after ↔
          Passed.reach? name f (f :: earlier.reverse) later = some .used) := by
  obtain ⟨houtput, header, definitions, hprints, hevident, -, hcode⟩ :=
    emitProgram_printout htokens hread hstart hrun
  obtain ⟨hmethods, -⟩ := readProgram_statements htokens hread
  have hbefore : Printer.Before 0 [] := fun g hg => (not_mem_nil hg).elim
  refine ⟨houtput, fun earlier later f name expression b hwalk hf hlocal hb => ?_⟩
  have hmeaning : resolve earlier.reverse f.path.tail (some name) = some b := by
    rw [resolve, Seen.find, hlocal, some_or]
  have hin := Seen.inMethod_of_latestLocal hlocal
  rw [← append_nil earlier.reverse] at hmeaning hin ⊢
  obtain ⟨before, after, hlines, hscan⟩ := hprints.constant hb hmethods hbefore hwalk hf hin hmeaning
  obtain ⟨ended, deep, hplace, hended, hreach⟩ := hscan 0
  obtain ⟨front, gap, back, htext, hfront, hback⟩ :=
    Piece.cut_text options.indentWidth (Piece.allEvident_definitions hevident.2) hlines
  have hof := (hfront ⟨0, 0⟩).trans hplace
  refine ⟨front, _, back, hcode.trans htext, ⟨gap, rfl⟩, ?_, ?_⟩
  · rw [Nesting.of, hof, hended, Nat.zero_add]
  · rw [CLine.leaks_iff (by rw [Nesting.of, hof]; exact Nat.succ_ne_zero deep), Nesting.of, hof, hback, hreach]

/-- A constant in a branch has the name of an option, and the next method gives up the option before it declares
a variable with the name. -/
theorem method_constant_leaks_iff_of_option :
    ∃ tokens program start output e,
      tokenize ("SETMODE M(A, B)\nMETHOD a:\n    DEFINE M = A\n    IF 1:\n        Int(M_A)\n        M_A = 5\n" ++
        "METHOD b:\n    DEFINE M = B\n    Int(M_A)") "f" = .ok tokens ∧
      readProgram tokens "f" [] = .ok program ∧ ({} : Options).emitter = .ok start ∧
      emitProgram start {} program.nodes = (.ok output, e) ∧
      ∃ before line after, e.code = before ++ line :: after ∧ (∃ gap, line = shift gap "#define M_A ((int) 5)") ∧
        (Nesting.of (before ++ [line])).ended = 0 ∧ ¬ CLine.Leaks "M_A" (before ++ [line]) after := by
  refine exists_emitted (fun program _ _ =>
    (fun fs : List Passed => fs[5]?.any fun f => f.statement = .assignment "M_A" (f.statement.runs.headD []) ∧
      Expression.render (f.statement.runs.headD []) = "5" ∧
      (Seen.latestLocal (Passed.see (fs.take 5).reverse) f.path.tail (some "M_A")).map (fun b =>
        (b.isMutable, b.type.text)) = some (false, "int") ∧
      Passed.methods (fs.take 5) = 1 ∧
      Passed.reach? "M_A" f (f :: (fs.take 5).reverse) (fs.drop 6) = some .removed)
        (walkAll [] 0 program.nodes) = true) (by decide +kernel) ?_
  intro tokens program start output e htokens hread hstart hrun hresult
  obtain ⟨f, hf, hresult⟩ := (Option.any_eq_true _ _).mp hresult
  obtain ⟨hassigns, hvalue, hlocal, hcount, hreach⟩ := of_decide_eq_true hresult
  obtain ⟨b, hlocal, hb⟩ := map_eq_some_iff.mp hlocal
  obtain ⟨hmutable, htype⟩ := Prod.mk.inj hb
  have hwalk : walkAll [] 0 program.nodes =
      (walkAll [] 0 program.nodes).take 5 ++ f :: (walkAll [] 0 program.nodes).drop 6 := by
    obtain ⟨hlength, rfl⟩ := List.getElem?_eq_some_iff.mp hf
    rw [← drop_eq_getElem_cons, take_append_drop]
  obtain ⟨-, hall⟩ := method_constant_leaks_iff htokens hread hstart hrun
  obtain ⟨before, line, after, hcode, hline, hended, hleaks⟩ := hall _ _ f _ _ b hwalk hassigns hlocal hmutable
  rw [htype, hvalue] at hline
  refine ⟨before, line, after, hcode, hline, ?_, ?_⟩
  · exact Nat.succ.inj (hended.trans hcount)
  · rw [hleaks, hreach]
    decide

/-- The macro of one method replaces a variable of the next. -/
theorem constant_of_method_in_next :
    ∃ tokens program start output e,
      tokenize "METHOD a:\n    Int(x)\n    x = 5\nMETHOD b:\n    Int(x)" "<input>" = .ok tokens ∧
      readProgram tokens "<input>" [] = .ok program ∧ ({} : Options).emitter = .ok start ∧
      emitProgram start {} program.nodes = (.ok output, e) ∧
      output = "#include <stdint.h>\n\nvoid a(void);\nvoid b(void);\n\nvoid a(void) \x7b\n    int x;\n" ++
        "    #define x ((int) 5)\n\x7d\n\nvoid b(void) \x7b\n    int x;\n\x7d" ∧
      e.code = ["void a(void) \x7b", "    int x;"] ++ "    #define x ((int) 5)" ::
        ["\x7d", "", "void b(void) \x7b", "    int x;", "\x7d"] ∧
      CLine.Leaks "x" (["void a(void) \x7b", "    int x;"] ++ ["    #define x ((int) 5)"])
        ["\x7d", "", "void b(void) \x7b", "    int x;", "\x7d"] := by
  refine exists_emitted (fun _ output e =>
    output = "#include <stdint.h>\n\nvoid a(void);\nvoid b(void);\n\nvoid a(void) \x7b\n    int x;\n" ++
        "    #define x ((int) 5)\n\x7d\n\nvoid b(void) \x7b\n    int x;\n\x7d" ∧
      e.code = ["void a(void) \x7b", "    int x;"] ++ "    #define x ((int) 5)" ::
        ["\x7d", "", "void b(void) \x7b", "    int x;", "\x7d"]) (by decide +kernel) ?_
  rintro tokens program start output e - - - - ⟨htext, hcode⟩
  refine ⟨htext, hcode, ["\x7d", "", "void b(void) \x7b"], "    int x;", ["\x7d"], rfl, ?_, ?_, ?_⟩
  · decide +kernel
  · decide +kernel
  · decide +kernel

end CirOutline
