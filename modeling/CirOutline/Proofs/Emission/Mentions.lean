import CirOutline.Proofs.Alike
import CirOutline.Proofs.Emission.IdentifierLines

/-!
The identifiers that statements bring into a text. `Passed.mentions` lists them for a statement by the
statements before it, and `Passed.fate?` tells what the statement does with a name: it mentions the name, or
it gives up the option of a mode that has the name for its symbol. `Prints.fate` shows that the lines of a
block do with a name first what the statements of the block do first.
-/

namespace CirOutline

open List Option CLine Passed Expression Text Statement

variable {inner : List Node} {line opening symbol type : String} {member : Statement} {names : List String}
  {parameters : List Parameter} {place place' : Option Location} {run : List Token}

namespace Statement

theorem run_subset_marks {s : Statement} (h : run ∈ s.runs) (loose : Bool) : Mark.run run ⊆ s.marks loose := by
  intro mark hmark
  cases s with
  | assignment | call | ifThen | elseIf | whileLoop | repeatLoop =>
    obtain rfl := mem_singleton.mp h
    simp [marks, hmark]
  | returns expression =>
    obtain rfl := mem_singleton.mp h
    have hne : run ≠ [] := by
      rintro rfl
      cases hmark
    simp [marks, hne, hmark]
  | forLoop start stop =>
    rcases mem_pair.mp h with rfl | rfl
    · simp [marks, hmark]
    · simp [marks, hmark]
  | _ => cases h

end Statement

namespace Passed

def chosen (past : List Passed) (path : List Nat) : String :=
  match (past.find? fun g => g.path == path).map statement with
  | some (.choose name) => name
  | _ => ""

/-- The identifiers in the lines of a statement, by the statements before it. -/
def mentions (past : List Passed) (f : Passed) : List String :=
  f.types past ++
  match f.statement with
  | .comment _ | .setMode .. | .choose _ => []
  | .pass => if f.isMember past then ["struct"] else []
  | .declaration typeName names _ =>
    (if typeName = arrayTypeName then names.tail else names).filter CToken.isIdentifier
  | .assignment name expression => name :: Expression.names expression
  | .call name arguments => name :: Expression.names arguments
  | .returns expression => "return" :: Expression.names expression
  | .defaultMode name _ => "defined" :: ((modes past).find? name).elim [] Mode.symbols
  | .defineMode name choice => [name ++ "_" ++ choice]
  | .structType name => ["typedef", name]
  | .method name parameters _ =>
    name :: parameters.flatMap fun p => p.name :: p.dimensions.filter CToken.isIdentifier
  | .ifThen condition => "if" :: Expression.names condition
  | .elseIf condition => "else" :: "if" :: Expression.names condition
  | .otherwise => ["else"]
  | .whileLoop condition => "while" :: Expression.names condition
  | .forLoop start stop =>
    "for" :: ((if (resolve past f.path.tail (iterator? start)).isNone then ["int"] else []) ++
      Expression.names start ++ Expression.names stop)
  | .repeatLoop count =>
    "for" :: "int" :: TemporaryPool.name (repeats past f.path.tail) :: Expression.names count
  | .option choice => [chosen past f.path.tail ++ "_" ++ choice]

/-- The macro that a statement removes before it mentions any other: the one of the option that is given up. -/
def removes? (past : List Passed) (f : Passed) : Option String :=
  match f.statement with
  | .defineMode name _ => ((modes past).find? name).bind fun m => m.current.map m.symbol
  | _ => none

def fate? (w : Watch) (x : List Passed × Passed) : Option Fate :=
  Fate.of? w (x.2.mentions x.1) (x.2.removes? x.1)

def allFate? (w : Watch) (past fs : List Passed) : Option Fate := (steps past fs).findSome? (fate? w)

theorem allFate?_append (w : Watch) (past fs gs : List Passed) :
    allFate? w past (fs ++ gs) = (allFate? w past fs).or (allFate? w (fs.reverse ++ past) gs) := by
  rw [allFate?, steps_append, findSome?_append]
  rfl

theorem allFate?_cons (w : Watch) (past : List Passed) (f : Passed) (fs : List Passed) :
    allFate? w past (f :: fs) = (fate? w (past, f)).or (allFate? w (f :: past) fs) := by
  rw [allFate?, steps, findSome?_cons]
  cases fate? w (past, f) <;> rfl

theorem allFate?_singleton (w : Watch) (past : List Passed) (f : Passed) :
    allFate? w past [f] = fate? w (past, f) := by
  rw [allFate?_cons]
  exact or_none

/-! ### Modes -/

theorem chosen_cons (past : List Passed) (path : List Nat) (name : String) :
    chosen (⟨path, .choose name⟩ :: past) path = name := by
  simp [chosen]

theorem chosen_append {news : List Passed} (past : List Passed) {parent : List Nat}
    (h : ∀ f ∈ news, ∃ j, (j :: parent) <:+ f.path) : chosen (news ++ past) parent = chosen past parent := by
  have hnone : news.find? (fun g => g.path == parent) = none := by
    rw [find?_eq_none]
    intro f hf hsame
    obtain ⟨j, hj⟩ := h f hf
    rw [beq_iff_eq.mp hsame] at hj
    exact Nat.not_succ_le_self _ hj.length_le
  rw [chosen, find?_append, hnone]
  rfl

end Passed

def Piece.fate? (w : Watch) (pieces : List Piece) : Option Fate :=
  (allReading (fun _ content => CLine.fate? w content) pieces).findSome? id

namespace Piece

theorem fate?_append (w : Watch) (ps qs : List Piece) : fate? w (ps ++ qs) = (fate? w ps).or (fate? w qs) := by
  rw [fate?, allReading_append, findSome?_append]
  rfl

theorem fate?_cons (w : Watch) (p : Piece) (ps : List Piece) : fate? w (p :: ps) = (fate? w [p]).or (fate? w ps) :=
  fate?_append w [p] ps

theorem fate?_line (w : Watch) (line : String) : fate? w [.line line] = CLine.fate? w line := by
  simp [fate?, allReading, reading]

theorem findSome?_cons_or (first : Option Fate) (fates : List (Option Fate)) :
    (first :: fates).findSome? id = first.or (fates.findSome? id) := by
  cases first <;> rfl

theorem fate?_block (w : Watch) (opening : String) (inner : List Piece) :
    fate? w [.braces opening inner] = (CLine.fate? w (opening ++ " \x7b")).or (fate? w inner) := by
  have hend : CLine.fate? w "\x7d" = none := holds_brace.fate? w
  rw [fate?, allReading, allReading, append_nil, reading, hend, findSome?_cons_or, findSome?_append,
    findSome?_cons_or]
  exact congrArg _ or_none

theorem fate?_group (w : Watch) (symbol : String) (inner : List Piece) :
    fate? w [.option symbol inner] = (CLine.fate? w ("#ifdef " ++ symbol)).or (fate? w inner) := by
  have hend : CLine.fate? w "#endif" = none := holds_endif.fate? w
  rw [fate?, allReading, allReading, append_nil, reading, hend, findSome?_cons_or, findSome?_append,
    findSome?_cons_or]
  exact congrArg _ or_none

theorem fate?_choice (w : Watch) (condition symbol : String) : fate? w [.fallback condition symbol] =
      (CLine.fate? w ("#if " ++ condition)).or (CLine.fate? w ("  #define " ++ symbol)) := by
  have hend : CLine.fate? w "#endif" = none := holds_endif.fate? w
  rw [fate?, allReading, allReading, append_nil, reading, hend, findSome?_cons_or, findSome?_cons_or]
  exact congrArg _ or_none

theorem fate?_braces (h : CLine.Holds (opening ++ " \x7b") names) (w : Watch) (inner : List Piece) :
    fate? w [.braces opening inner] = (Fate.of? w names none).or (fate? w inner) := by
  rw [fate?_block, h.fate? w]

theorem fate?_option (h : IsWord symbol) (w : Watch) (inner : List Piece) :
    fate? w [.option symbol inner] = (Fate.of? w [symbol] none).or (fate? w inner) := by
  have hword : IsWord "ifdef" := isWord_of_all rfl
  rw [fate?_group, (holds_directive hword (by decide) h (by simp)).fate? w]

theorem fate?_fallback {symbols : List String} (h : ∀ symbol ∈ symbols, IsWord symbol)
    (hsymbol : symbol ∈ symbols) (w : Watch) :
    fate? w [.fallback (" && ".intercalate (symbols.map fun symbol => "!defined(" ++ symbol ++ ")")) symbol] =
      Fate.of? w ("defined" :: symbols) none := by
  have hdefine : CLine.fate? w ("  #define " ++ symbol) = Fate.of? w [symbol] none := by
    rw [CLine.fate?, tokens_define_shifted]
    exact (holds_define (h symbol hsymbol)).fate? w
  rw [fate?_choice, hdefine, (holds_undefined h).fate? w, ← Fate.of?_append]
  refine Fate.of?_congr ?_ none
  rw [mem_append, mem_flatMap, mem_singleton, mem_cons]
  constructor
  · rintro (⟨other, hother, hname⟩ | hname)
    · rcases (by simpa using hname : w.name = "defined" ∨ w.name = other) with hname | hname
      · exact .inl hname
      · exact .inr (hname ▸ hother)
    · exact .inr (hname ▸ hsymbol)
  · rintro (hname | hname)
    · exact .inl ⟨symbol, hsymbol, by simp [hname]⟩
    · exact .inl ⟨w.name, hname, by simp⟩

end Piece

namespace Printer

variable {options : Options} {past : List Passed} {parent : List Nat} {index : Nat} {how : Option Mode} {n : Node}
  {c : Context} {pieces : List Piece}

section

variable (hn : Stands past parent index how n c)
include hn

theorem Stands.solid (hrun : run ∈ n.statement.runs) : ∀ t ∈ significant run, Solid t := by
  intro t ht
  obtain ⟨hmem, hkind⟩ := mem_filter.mp ht
  simp only [Bool.and_eq_true, bne_iff_ne] at hkind
  obtain ⟨loose, hmarks⟩ := Lexical.marks (Node.forall_statements.mp hn.lexical n mem_cons_self).1.1
  refine ⟨hmarks (.copy t) (run_subset_marks hrun loose (List.mem_map_of_mem hmem)) ?_,
    hkind.1.1, hkind.1.2, hkind.2⟩
  simpa [Mark.isGap] using hkind.1.1

theorem Stands.allFate?_own (hclosed : n.statement.opensBlock = false)
    (w : Watch) : allFate? w past (n.walk (index :: parent)) =
      fate? w (past, ⟨index :: parent, n.statement⟩) := by
  rw [hn.walk_eq hclosed, allFate?_singleton]

theorem Stands.fate_line (hclosed : n.statement.opensBlock = false) (hholds : CLine.Holds line names)
    (hnames : ∀ other, other ∈ names ↔ other ∈ mentions past ⟨index :: parent, n.statement⟩)
    (hkeeps : removes? past ⟨index :: parent, n.statement⟩ = none) (w : Watch) :
    Piece.fate? w [.line line] = Passed.allFate? w past (n.walk (index :: parent)) := by
  rw [Piece.fate?_line, hholds.fate?, hn.allFate?_own hclosed, Passed.fate?, hkeeps]
  exact Fate.of?_congr (hnames w.name) none

end

section

variable (hn : Stands past parent index how (.mk (.structType type) place [.mk member place' inner]) c)
include hn

theorem Stands.walk_named (hclosed : member.opensBlock = false) :
    (Node.mk (.structType type) place [.mk member place' inner]).walk (index :: parent) =
      [⟨index :: parent, .structType type⟩, ⟨0 :: index :: parent, member⟩] := by
  obtain rfl : inner = [] := hn.sane.trim.1.2.1.1 hclosed
  rfl

theorem Stands.fate_named (hclosed : member.opensBlock = false) (hholds : CLine.Holds line names)
    (hnames : ∀ other, other ∈ names ↔ other ∈ ["typedef", type] ++
      mentions (⟨index :: parent, .structType type⟩ :: past) ⟨0 :: index :: parent, member⟩)
    (hkeeps : removes? (⟨index :: parent, .structType type⟩ :: past) ⟨0 :: index :: parent, member⟩ = none)
    (w : Watch) : Piece.fate? w [.line line] = allFate? w past
      ((Node.mk (.structType type) place [.mk member place' inner]).walk (index :: parent)) := by
  have hown : fate? w (past, ⟨index :: parent, .structType type⟩) = Fate.of? w ["typedef", type] none := rfl
  have hmember : fate? w (⟨index :: parent, .structType type⟩ :: past, ⟨0 :: index :: parent, member⟩) =
      Fate.of? w (mentions (⟨index :: parent, .structType type⟩ :: past)
        ⟨0 :: index :: parent, member⟩) none := by
    rw [Passed.fate?, hkeeps]
  calc Piece.fate? w [.line line]
      = Fate.of? w (["typedef", type] ++ mentions (⟨index :: parent, .structType type⟩ :: past)
          ⟨0 :: index :: parent, member⟩) none := by
        rw [Piece.fate?_line, hholds.fate?, Fate.of?_congr (hnames w.name)]
    _ = (fate? w (past, ⟨index :: parent, .structType type⟩)).or (fate? w
          (⟨index :: parent, .structType type⟩ :: past, ⟨0 :: index :: parent, member⟩)) := by
        rw [Fate.of?_append, hown, hmember]
    _ = _ := by rw [hn.walk_named hclosed, allFate?_cons, allFate?_singleton]

end

theorem fate_remarks {w : Watch} {pieces : List Piece}
    (h : ∀ p ∈ pieces, ∃ line, p = .line line ∧ CLine.tokens line = []) : Piece.fate? w pieces = none := by
  induction pieces with
  | nil => rfl
  | cons p pieces ih =>
    rw [forall_mem_cons] at h
    obtain ⟨line, rfl, hline⟩ := h.1
    rw [Piece.fate?_cons, Piece.fate?_line, (holds_of_empty hline).fate?, ih h.2]
    rfl

/-- Selecting an option removes the macro of the one before and names its own. -/
theorem fate_selection {m : Mode} {choice : String} (hchoice : IsWord (m.symbol choice))
    (hcurrent : ∀ o ∈ m.current, IsWord (m.symbol o)) {w : Watch} :
    Piece.fate? w ((m.current.toList.map fun current => .line ("#undef " ++ m.symbol current)) ++
        [.line ("#define " ++ m.symbol choice)]) =
      Fate.of? w [m.symbol choice] (m.current.map m.symbol) := by
  rw [Piece.fate?_append, Piece.fate?_line, (holds_define hchoice).fate? w]
  cases hpresent : m.current with
  | none => rfl
  | some current =>
    change (Piece.fate? w [.line ("#undef " ++ m.symbol current)]).or _ = _
    rw [Piece.fate?_line, fate?_undef (hcurrent current hpresent) w]
    by_cases hname : m.symbol current = w.name
    · simp [Fate.of?, hname]
    · simp [Fate.of?, hname]

theorem Says.fate (hn : Stands past parent index how n c) (hwording : Says options c n pieces) (w : Watch) :
    Piece.fate? w pieces = allFate? w past (n.walk (index :: parent)) := by
  have hs := hn.named_own
  have hmember := hn.told.agrees.not_isMember n.statement
  cases hwording with
  | remarks hremark hpieces =>
    have hclosed : n.statement.opensBlock = false := by
      generalize n.statement = s at hremark
      cases s <;> first | rfl | cases hremark
    rw [fate_remarks fun p hp => (hpieces p hp).imp fun _ hline => ⟨hline.1, hline.2.2.1⟩,
      hn.allFate?_own hclosed, Passed.fate?]
    generalize n.statement = s at hremark hmember
    cases s with
    | comment | setMode => rfl
    | pass =>
      change _ = Fate.of? w (if isMember past ⟨index :: parent, .pass⟩ then ["struct"] else []) none
      rw [hmember]
      rfl
    | _ => cases hremark
  | @declares typeName declared isMutable type _ _ hplain htype =>
    obtain ⟨hword, hdimensions⟩ := TypeTable.forall_resolve (P := IsType) hn.told.types (by rw [htype]; rfl)
    have htext := CType.text_of_plain hdimensions
    rw [htext]
    refine hn.fate_line rfl (holds_declaration hword.word hs) (fun other => ?_) rfl w
    change _ ↔ other ∈ types past ⟨index :: parent, .declaration typeName declared isMutable⟩ ++
      (if typeName = arrayTypeName then declared.tail else declared).filter CToken.isIdentifier
    rw [hn.types_eq, types_declaration hplain htype, if_neg hplain, singleton_append]
  | @assigns assigned expression b _ _ hfound hb =>
    have hsolid : ∀ t ∈ significant expression, Solid t := hn.solid mem_cons_self
    refine hn.fate_line rfl (holds_assignment hs.word hsolid) (fun other => ?_) rfl w
    change _ ↔ other ∈ types past ⟨index :: parent, .assignment assigned expression⟩ ++
      assigned :: names expression
    rw [hn.types_eq, types_assignment hfound, if_pos hb, nil_append]
  | @fixes assigned expression b _ _ hfound hb =>
    have hplain : b.Plain := plain_of_resolve hn.past ((hn.told.agrees.lookup _).symm.trans hfound)
    have htext := CType.text_of_plain (hplain.dimensions hb)
    have hsolid : ∀ t ∈ significant expression, Solid t := hn.solid mem_cons_self
    rw [htext]
    refine hn.fate_line rfl (holds_constant hs.word hplain.type.word hsolid) (fun other => ?_) rfl w
    change _ ↔ other ∈ types past ⟨index :: parent, .assignment assigned expression⟩ ++
      assigned :: names expression
    rw [hn.types_eq, types_assignment hfound, if_neg (by simp [hb]), singleton_append]
    exact (List.Perm.swap _ _ _).mem_iff
  | @calls called arguments =>
    have hsolid : ∀ t ∈ significant arguments, Solid t := hn.solid mem_cons_self
    exact hn.fate_line rfl (holds_call hs hsolid) (fun other => Iff.rfl) rfl w
  | @returns expression =>
    have hsolid : ∀ t ∈ significant expression, Solid t := hn.solid mem_cons_self
    exact hn.fate_line rfl (holds_return hsolid) (fun other => Iff.rfl) rfl w
  | @defaults mode choice found _ _ hvalid =>
    obtain ⟨rfl, hfound, hchoice, hnamed, -⟩ := hn.symbols hvalid
    have hsymbols : ∀ symbol ∈ found.symbols, IsWord symbol := List.forall_mem_map.mpr fun o ho =>
      hnamed.symbol ho
    rw [Piece.fate?_fallback hsymbols (List.mem_map_of_mem hchoice), hn.allFate?_own rfl, Passed.fate?]
    change _ = Fate.of? w ([] ++ "defined" :: ((modes past).find? found.name).elim [] Mode.symbols) none
    rw [hfound]
    rfl
  | @selects mode choice found _ _ hvalid =>
    obtain ⟨rfl, hfound, hchoice, hnamed, hcurrent⟩ := hn.symbols hvalid
    have hremoves : removes? past ⟨index :: parent, .defineMode found.name choice⟩ =
        found.current.map found.symbol := by
      change ((modes past).find? found.name).bind _ = _
      rw [hfound]
      rfl
    rw [fate_selection (hnamed.symbol hchoice) hcurrent, hn.allFate?_own rfl, Passed.fate?, ← hremoves]
    rfl
  | @named type place place' inner =>
    refine hn.fate_named rfl (holds_named hs.word) (fun other => ?_) rfl w
    have hstands : isMember (⟨index :: parent, .structType type⟩ :: past)
        ⟨0 :: index :: parent, .pass⟩ = true := by
      simp [isMember, isStructType]
    change _ ↔ other ∈ ["typedef", type] ++ if isMember (⟨index :: parent, .structType type⟩ :: past)
      ⟨0 :: index :: parent, .pass⟩ then ["struct"] else []
    rw [hstands]
    simp only [if_pos, mem_append, mem_cons, not_mem_nil, or_false]
    tauto
  | @array type element dimension dimensions isMutable resolved place place' inner htype =>
    have htypes : ∀ entry ∈ c.types.register type, IsType entry.2 :=
      TypeTable.forall_register hn.told.types hs
    obtain ⟨hword, hdimensions⟩ := TypeTable.forall_resolve (P := IsType) htypes (by rw [htype]; rfl)
    have hitems : ∀ name ∈ element :: dimension :: dimensions, IsItem name :=
      (Node.forall_statements.mp (Node.forall_statements.mp hn.named _ mem_cons_self).2 _ mem_cons_self).1
    have hholds := holds_array hword.word hs.word (hdimensions ▸ (forall_mem_cons.mp hitems).2)
    refine hn.fate_named rfl hholds (fun other => ?_) rfl w
    have hknown : knownTypes (⟨index :: parent, .structType type⟩ :: past) = c.types.register type :=
      congrArg (fun table => table.register type) hn.told.agrees.types.symm
    change _ ↔ other ∈ ["typedef", type] ++ (types (knownTypes (⟨index :: parent, .structType type⟩ :: past)) _
        (.declaration arrayTypeName (element :: dimension :: dimensions) isMutable) ++
      (dimension :: dimensions).filter CToken.isIdentifier)
    rw [hknown, types_array htype, hdimensions]
    simp only [mem_append, mem_cons, not_mem_nil, or_false]
    tauto

theorem iterator_named {start stop : List Token} (hproper : (Statement.forLoop start stop).Proper)
    (hsolid : ∀ t ∈ significant start, Solid t) :
    IsWord (Scope.nameText (iterator? start)) ∧
      Scope.nameText (iterator? start) ∈ Expression.names start := by
  obtain ⟨⟨t, rest, rfl, hword⟩, -⟩ := hproper
  have hcounter : Scope.nameText (iterator? (t :: rest)) = t.raw := by
    simp [iterator?, hword, Scope.nameText]
  have ht : t ∈ significant (t :: rest) := by simp [significant, hword]
  have hlexeme := (hsolid t ht).lexeme
  rw [hword] at hlexeme
  rw [hcounter]
  exact ⟨hlexeme, List.mem_map_of_mem (mem_filter.mpr ⟨ht, by simp [Expression.isName, hword]⟩)⟩

theorem mem_loop {counter other : String} {starts stops : List String} (h : counter ∈ starts) :
    other ∈ starts ++ counter :: (stops ++ [counter]) ↔ other ∈ starts ++ stops := by
  have hown : other = counter → other ∈ starts := by
    rintro rfl
    exact h
  simp only [mem_append, mem_cons, not_mem_nil, or_false]
  tauto

theorem Heads.fate (hn : Stands past parent index how n c) (hhead : Heads c n.statement opening) (w : Watch)
    (inner : List Piece) :
    Piece.fate? w [.braces opening inner] =
      (fate? w (past, ⟨index :: parent, n.statement⟩)).or (Piece.fate? w inner) := by
  obtain ⟨s, place, body⟩ := n
  change Heads c s opening at hhead
  have hall : ∀ run ∈ s.runs, ∀ t ∈ significant run, Solid t := fun run hrun =>
    hn.solid hrun
  have hproper : s.Proper := hn.sane.readable.1.proper
  have hmeaning : ∀ name, c.scope.lookup name = resolve past parent name := hn.told.agrees.lookup
  change _ = (Fate.of? w (mentions past ⟨index :: parent, s⟩) (removes? past ⟨index :: parent, s⟩)).or _
  -- the line holds the names that its statement mentions, in another order and some of them twice
  suffices h : ∃ names, CLine.Holds (opening ++ " \x7b") names ∧
      (∀ other, other ∈ names ↔ other ∈ mentions past ⟨index :: parent, s⟩) ∧
      removes? past ⟨index :: parent, s⟩ = none by
    obtain ⟨names, hholds, hnames, hkeeps⟩ := h
    rw [Piece.fate?_braces hholds, hkeeps, Fate.of?_congr (hnames w.name)]
  cases hhead with
  | @ifThen condition =>
    have hword : IsWord "if" := isWord_of_all rfl
    have hsolid := hall condition mem_cons_self
    exact ⟨_, holds_condition hword hsolid (by simp), fun _ => Iff.rfl, rfl⟩
  | @elseIf condition =>
    exact ⟨_, holds_elseIf (hall condition mem_cons_self), fun _ => Iff.rfl, rfl⟩
  | otherwise => exact ⟨_, holds_else, fun _ => Iff.rfl, rfl⟩
  | @whileLoop condition =>
    have hword : IsWord "while" := isWord_of_all rfl
    have hsolid := hall condition mem_cons_self
    exact ⟨_, holds_condition hword hsolid (by simp), fun _ => Iff.rfl, rfl⟩
  | @loop start stop b hfound =>
    have hstart := hall start mem_cons_self
    have hstop := hall stop (mem_cons_of_mem _ mem_cons_self)
    obtain ⟨hword, hmem⟩ := iterator_named hproper hstart
    refine ⟨_, holds_loop hword hstart hstop "" [] (by simp) fun _ => rfl, fun other => ?_, rfl⟩
    change _ ↔ other ∈ "for" :: ((if (resolve past parent (iterator? start)).isNone then ["int"] else []) ++
      names start ++ names stop)
    rw [← hmeaning, hfound, mem_cons, mem_append, mem_loop hmem]
    simp
  | @declaringLoop start stop hnone =>
    have hstart := hall start mem_cons_self
    have hstop := hall stop (mem_cons_of_mem _ mem_cons_self)
    obtain ⟨hword, hmem⟩ := iterator_named hproper hstart
    have hint : ∀ rest, CToken.identifiers ("int".toList ++ ' ' :: rest) = ["int"] ++ CToken.identifiers rest :=
      fun _ => CToken.identifiers_word (isWord_of_all rfl) rfl
    refine ⟨_, holds_loop hword hstart hstop "int " _ (by simp) hint, fun other => ?_, rfl⟩
    change _ ↔ other ∈ "for" :: ((if (resolve past parent (iterator? start)).isNone then ["int"] else []) ++
      names start ++ names stop)
    rw [← hmeaning, hnone, mem_cons, mem_append, mem_loop hmem]
    simp
  | @countedLoop count counter pool htaken =>
    obtain ⟨rfl, -⟩ := hn.told.pool.acquire htaken
    refine ⟨_, holds_countedLoop (TemporaryPool.isWord_name _) (hall count mem_cons_self), fun other => ?_, rfl⟩
    change _ ↔ other ∈ "for" :: "int" :: TemporaryPool.name (repeats past parent) :: Expression.names count
    simp only [mem_cons, mem_append, not_mem_nil, or_false]
    tauto

/-- The options of a block are those of the mode that its statement chooses by. -/
def Chosen (past : List Passed) (parent : List Nat) (how : Option Mode) : Prop :=
  ∀ mode ∈ how, chosen past parent = mode.name

theorem Chosen.none (past : List Passed) (parent : List Nat) : Chosen past parent none := by
  rintro mode ⟨⟩

theorem Chosen.next (h : Chosen past parent how) (n : Node) (index : Nat) :
    Chosen ((n.walk (index :: parent)).reverse ++ past) parent how := by
  intro mode hhow
  rw [chosen_append past fun f hf => ⟨index, Node.suffix_of_mem_walk (mem_reverse.mp hf)⟩]
  exact h mode hhow

theorem Chosen.entering {chosen : String} {mode : Mode} (hs : n.statement = .choose chosen)
    (hmode : c.modes.get chosen = .ok mode) (past : List Passed) (path : List Nat) :
    Chosen (⟨path, n.statement⟩ :: past) path (some mode) := by
  rintro m ⟨⟩
  rw [hs, chosen_cons, ModeRegistry.name_of_get hmode]

theorem Prints.fate {ns : List Node} (hprints : Prints options past parent index how ns pieces) (w : Watch) :
    Chosen past parent how → Piece.fate? w pieces = allFate? w past (Node.walkAll parent index ns) := by
  induction hprints with
  | nil => intro _; rfl
  | leaf hn hwording _ ih =>
    intro hmode
    rw [Node.walkAll, allFate?_append, Piece.fate?_append, hwording.fate hn, ih (hmode.next _ _)]
  | @block past parent index how how' n ns c inner pieces rest hn hwraps _ _ _ ihinner ih =>
    intro hmode
    rw [Node.walkAll, allFate?_append, Piece.fate?_append, ih (hmode.next _ _), walk_split, allFate?_cons]
    obtain ⟨s, place, body⟩ := n
    congr 1
    cases hwraps with
    | braces hhead => rw [hhead.fate hn, ihinner (.none _ _)]
    | choose hfound =>
      rw [ihinner (.entering rfl hfound _ _)]
      rfl
    | @option mode found choice _ hhow hvalid =>
      obtain ⟨hname, -, hchoice, hnamed, -⟩ := hn.symbols hvalid
      have hword : IsWord (mode.symbol choice) := by
        have hsymbol := hnamed.symbol hchoice
        rwa [Mode.symbol, hname] at hsymbol
      have hown : fate? w (past, ⟨index :: parent, .option choice⟩) =
          Fate.of? w [mode.symbol choice] none := by
        change Fate.of? w [chosen past parent ++ "_" ++ choice] none = _
        rw [hmode mode hhow]
        rfl
      rw [Piece.fate?_option hword, ihinner (.none _ _)]
      exact congrArg (Option.or · _) hown.symm

/-! ### Heads of methods -/

theorem parameters_named {table : TypeTable} {types : List CType}
    (h : Resolved table parameters types) :
    parameters.flatMap (fun p => p.name :: p.dimensions.filter CToken.isIdentifier) =
      (parameters.zip types).flatMap fun x => x.1.name :: x.2.dimensions.filter CToken.isIdentifier := by
  induction h with
  | nil => rfl
  | cons htype _ ih =>
    have hdimensions := (TypeTable.forall_resolve (P := fun _ => True) (fun _ _ => trivial) htype).2
    rw [flatMap_cons, ih, zip_cons_cons, flatMap_cons, hdimensions]

theorem Stands.fate_method {method head : String} {returnType : Option String} {body : List Node}
    {inside : Context}
    (hn : Stands past [] index how (.mk (.method method parameters returnType) place body) c)
    (hhead : signature method parameters returnType c = some (head, inside)) (w : Watch)
    (inner : List Piece) :
    Piece.fate? w [.braces head inner] =
      (fate? w (past, ⟨[index], .method method parameters returnType⟩)).or (Piece.fate? w inner) := by
  obtain ⟨types, result, htypes, hresult, rfl, -⟩ := of_signature hhead
  obtain ⟨hname, hparameters⟩ : (Statement.method method parameters returnType).Named := hn.named_own
  have hword := isType_resultType hn.told.types hresult
  obtain ⟨hall, -⟩ := parameters_declared hn.told.types hparameters htypes
  rw [Piece.fate?_braces (holds_head hword.word hname hall)]
  refine congrArg (fun fate => Option.or fate _) (Fate.of?_congr ?_ none)
  change _ ↔ w.name ∈ Passed.types past ⟨[index], .method method parameters returnType⟩ ++
    method :: parameters.flatMap fun p => p.name :: p.dimensions.filter CToken.isIdentifier
  have htyped : Passed.types past ⟨[index], .method method parameters returnType⟩ = result ::
      if (parameters.zip types).isEmpty then [CType.void] else (parameters.zip types).map fun x => x.2.name := by
    rw [hn.types_eq, ← parameters_typed htypes, htypes.isEmpty_eq, ← resultType_eq hresult]
    rfl
  rw [htyped, parameters_named htypes]
  generalize parameters.zip types = declared
  by_cases hnone : declared.isEmpty = true
  · rw [List.isEmpty_iff.mp hnone]
    exact (List.Perm.cons result (List.Perm.swap _ _ [])).mem_iff
  · have hsplit : ∀ other, (other ∈ declared.flatMap fun x => x.2.name :: x.1.name ::
        x.2.dimensions.filter CToken.isIdentifier) ↔ other ∈ declared.map (fun x => x.2.name) ∨
          other ∈ declared.flatMap fun x => x.1.name :: x.2.dimensions.filter CToken.isIdentifier := by
      intro other
      simp only [mem_flatMap, mem_cons (a := other), List.mem_map, and_or_left, exists_or, eq_comm (a := other)]
    rw [if_neg hnone, if_neg hnone, mem_cons, mem_cons, hsplit, mem_append, mem_cons, mem_cons]
    tauto

end Printer

end CirOutline
