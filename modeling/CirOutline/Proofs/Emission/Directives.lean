import CirOutline.Proofs.Emission.Printout

/-!
The directives of a printed program. What the lines of a printout tell the preprocessor can be read off its
pieces, unless one of them goes on with the next line. `Prints.whole` shows that only a copied comment does
that.
-/

namespace CirOutline

open LexicalRule CToken List Option String CLine Text Piece ModeRegistry Node

variable {choice name : String} {m : Mode} {ps : List Piece} {options : Options}

/-! ### Directives of pieces -/

namespace Piece

def allDirectives (ps : List Piece) : List Directive := (contents ps).filterMap directive?

theorem allDirectives_append (ps qs : List Piece) :
    allDirectives (ps ++ qs) = allDirectives ps ++ allDirectives qs := by
  rw [allDirectives, contents, allReading_append, filterMap_append]
  rfl

theorem allDirectives_cons (p : Piece) (ps : List Piece) :
    allDirectives (p :: ps) = allDirectives [p] ++ allDirectives ps := allDirectives_append [p] ps

theorem allDirectives_line (content : String) : allDirectives [.line content] = (directive? content).toList := by
  change [content].filterMap directive? = _
  rw [filterMap_cons]
  cases directive? content <;> rfl

theorem allDirectives_braces {opening : String} (h : directive? (opening ++ " \x7b") = none) (inner : List Piece) :
    allDirectives [.braces opening inner] = allDirectives inner := by
  simp [allDirectives, contents, allReading, reading, h, directive?_brace]

theorem allDirectives_option {symbol : String} (h : IsWord symbol) (inner : List Piece) :
    allDirectives [.option symbol inner] = .ifdef symbol :: (allDirectives inner ++ [.endif]) := by
  simp [allDirectives, contents, allReading, reading, directive?_ifdef h, directive?_endif]

theorem allDirectives_intersperse (definitions : List Piece) :
    allDirectives (definitions.intersperse (.line "")) = allDirectives definitions :=
  intersperse_of_append allDirectives_append (by rw [allDirectives_line, directive?_blank]; rfl) definitions

theorem splices_allLines (width : Int) (h : ∀ content ∈ contents ps, splices content = false) :
    ∀ line ∈ allLines width ps, splices line = false := by
  intro line hline
  obtain ⟨gap, content, hcontent, rfl⟩ := of_mem_allLines hline
  rw [splices_shift]
  exact h content hcontent

theorem filterMap_directive?_allLines (width : Int) (ps : List Piece) :
    (allLines width ps).filterMap directive? = allDirectives ps := by
  rw [allLines_eq, allDirectives, contents, ← map_allMarked _ ps 0, filterMap_map, filterMap_map]
  congr 1
  funext l
  exact directive?_shift _ _

end Piece

/-! ### Modes -/

namespace Mode

def bare (m : Mode) : Mode := { m with current := none }

structure Named (m : Mode) : Prop where
  name : IsWord m.name
  options : ∀ o ∈ m.options, IsItem o

theorem Named.symbol (h : m.Named) {o : String} (ho : o ∈ m.options) : IsWord (m.symbol o) :=
  isWord_symbol h.name (h.options o ho)

end Mode

namespace ModeRegistry

theorem find?_put (m : Mode) (modes : ModeRegistry) (name : String) :
    (put m modes).find? name = if m.name = name then some m else modes.find? name := by
  unfold find?
  induction modes with
  | nil => by_cases hname : m.name = name <;> simp [put, hname]
  | cons other rest ih =>
    by_cases hother : other.name = m.name
    · by_cases hname : m.name = name <;> simp [put, hother, hname]
    · by_cases hname : other.name = name
      · subst hname
        simp [put, hother, Ne.symm hother]
      · simp [put, hother, hname, ih]

theorem mem_put {x : Mode} {modes : ModeRegistry} (h : x ∈ put m modes) : x = m ∨ x ∈ modes := by
  induction modes with
  | nil => exact .inl (mem_singleton.mp h)
  | cons other rest ih =>
    rw [put] at h
    split_ifs at h
    · rcases mem_cons.mp h with rfl | h
      · exact .inl rfl
      · exact .inr (mem_cons_of_mem other h)
    · rcases mem_cons.mp h with rfl | h
      · exact .inr mem_cons_self
      · exact (ih h).imp_right (mem_cons_of_mem other)

theorem name_of_get {modes : ModeRegistry} (h : modes.get name = .ok m) :
    m.name = name := by
  unfold get at h
  cases hfound : modes.find? name with
  | none => simp [hfound] at h
  | some found =>
    obtain rfl : found = m := by simpa [hfound] using h
    exact (mem_of_find? hfound).2

/-- The modes are among those that are registered, and what is selected is an option. -/
def Within (registered : List Mode) (modes : ModeRegistry) : Prop :=
  ∀ m ∈ modes, m.bare ∈ registered ∧ ∀ o ∈ m.current, o ∈ m.options

theorem Within.put {registered : List Mode} {modes : ModeRegistry} (h : Within registered modes)
    (hm : m.bare ∈ registered) (hcurrent : ∀ o ∈ m.current, o ∈ m.options) :
    Within registered (modes.put m) := by
  intro x hx
  rcases mem_put hx with rfl | hx
  · exact ⟨hm, hcurrent⟩
  · exact h x hx

end ModeRegistry

namespace Passed

theorem named_modes {past : List Passed} (h : ∀ f ∈ past, f.statement.Named) :
    ∀ m ∈ modes past, m.Named ∧ ∀ o ∈ m.current, IsItem o := by
  induction past with
  | nil => exact forall_mem_nil _
  | cons f past ih =>
    rw [forall_mem_cons] at h
    have hold := ih h.2
    intro m hm
    change m ∈ f.statement.modesAfter (modes past) at hm
    have hselects : ∀ {name choice : String} {found : Mode}, IsWord choice → (modes past).find? name = some found →
        m ∈ (modes past).put { found with current := some choice } →
        m.Named ∧ ∀ o ∈ m.current, IsItem o := by
      intro name choice found hchoice hfound hm
      rcases ModeRegistry.mem_put hm with rfl | hm
      · have hnamed := (hold found (ModeRegistry.mem_of_find? hfound).1).1
        refine ⟨⟨hnamed.name, hnamed.options⟩, fun o ho => ?_⟩
        obtain rfl : choice = o := Option.some.inj ho
        exact .inl hchoice
      · exact hold m hm
    obtain ⟨path, s⟩ := f
    cases s with
    | setMode name choices =>
      rcases ModeRegistry.mem_put hm with rfl | hm
      · exact ⟨⟨h.1.1, h.1.2⟩, fun o ho => by cases ho⟩
      · exact hold m hm
    | defaultMode name choice =>
      simp only [Statement.modesAfter] at hm
      cases hfound : (modes past).find? name with
      | none => exact hold m (by simpa [hfound] using hm)
      | some found =>
        rw [hfound, elim_some] at hm
        split_ifs at hm
        · exact hold m hm
        · exact hselects h.1.2 hfound hm
    | defineMode name choice =>
      simp only [Statement.modesAfter] at hm
      cases hfound : (modes past).find? name with
      | none => exact hold m (by simpa [hfound] using hm)
      | some found =>
        rw [hfound, elim_some] at hm
        exact hselects h.1.2 hfound hm
    | _ => exact hold m hm

end Passed

/-! ### Statements -/

namespace Statement

def registers? : Statement → Option Mode
  | setMode name choices => some ⟨name, choices, none⟩
  | _ => none

/-- The block whose lines a statement puts between its own, with the mode that it depends on. -/
def inside? : Statement → Option (Option String)
  | method .. | ifThen _ | elseIf _ | otherwise | whileLoop _ | forLoop .. | repeatLoop _ => some none
  | choose mode => some (some mode)
  | _ => none

def assigned? : Statement → Option String
  | assignment name _ => some name
  | _ => none

end Statement

/-! ### Lines that go on with the next -/

namespace CLine

theorem splices_name (h : IsWord name) (before : String) : splices (before ++ name) = false := by
  have hne : name.toList ≠ [] := (IsItem.continuesName (.inl h)).1
  rw [splices, toList_append, getLast?_append_of_ne_nil _ hne, beq_eq_false_iff_ne, ne_eq]
  intro hlast
  have hmem := mem_of_getLast? hlast
  exact absurd ((IsItem.continuesName (.inl h)).2 _ hmem) (by decide)

theorem splices_append {tail : String} {c : Char} (htail : tail.toList.getLast? = some c) (hc : c ≠ '\\')
    (before : String) : splices (before ++ tail) = false := by
  have hne : tail.toList ≠ [] := by
    intro hnil
    rw [hnil] at htail
    cases htail
  rw [splices, toList_append, getLast?_append_of_ne_nil _ hne, htail]
  simpa using hc

theorem splices_absence {names : List String} (hne : names ≠ []) (before : String) :
    splices (before ++ absence names) = false := by
  suffices hlast : (absence names).toList.getLast? = some ')' from splices_append hlast (by decide) before
  induction names with
  | nil => exact absurd rfl hne
  | cons name names ih =>
    cases names with
    | nil =>
      have htext : (absence [name]).toList = ("!defined(" ++ name).toList ++ [')'] := by
        simp [absence]
      rw [htext, getLast?_append]
      rfl
    | cons other names =>
      have htext : (absence (name :: other :: names)).toList = ("!defined(" ++ name ++ ") && ").toList ++
          (absence (other :: names)).toList := by
        simp [absence, String.intercalate_cons_cons, -toList_intercalate]
      have hlast := ih (cons_ne_nil _ _)
      rw [htext, getLast?_append, hlast]
      rfl

end CLine

namespace Printer

variable {past : List Passed} {parent : List Nat} {index : Nat} {how : Option Mode} {n : Node} {c : Context}
  {pieces : List Piece} {ns : List Node}

theorem Stands.symbols {found : Mode} (hn : Stands past parent index how n c)
    (hvalid : c.modes.validate name choice = .ok found) :
    found.name = name ∧ (Passed.modes past).find? found.name = some found ∧ choice ∈ found.options ∧
      found.Named ∧ ∀ o ∈ found.current, IsWord (found.symbol o) := by
  obtain ⟨hfound, rfl, hchoice⟩ := validate_ok (by rw [hvalid]; rfl)
  rw [hn.told.modes] at hfound
  obtain ⟨hnamed, hcurrent⟩ := Passed.named_modes hn.past found (mem_of_find? hfound).1
  exact ⟨rfl, hfound, hchoice, hnamed, fun o ho => Mode.isWord_symbol hnamed.name (hcurrent o ho)⟩

theorem Says.whole (hn : Stands past parent index how n c) (hcopied : n.statement.splices options = false)
    (hwording : Says options c n pieces) : ∀ content ∈ contents pieces, splices content = false := by
  cases hwording with
  | remarks hremark hpieces =>
    refine contents_of_lines fun p hp => ?_
    obtain ⟨line, rfl, -, -, hsplices⟩ := hpieces p hp
    refine ⟨line, rfl, Bool.eq_false_iff.mpr fun hline => ?_⟩
    cases hcopied.symm.trans (hsplices hline)
  | declares | assigns | fixes | calls | named | array =>
    exact forall_mem_singleton.mpr (splices_append rfl (by decide) _)
  | returns =>
    refine forall_mem_singleton.mpr ?_
    split_ifs
    · decide
    · exact splices_append rfl (by decide) _
  | @defaults mode choice found _ _ hvalid =>
    obtain ⟨-, -, hchoice, hnamed, -⟩ := hn.symbols hvalid
    have hne : found.symbols ≠ [] := ne_nil_of_mem (List.mem_map_of_mem hchoice)
    exact forall_mem_cons.mpr ⟨splices_absence hne "#if ", forall_mem_cons.mpr
      ⟨splices_name (hnamed.symbol hchoice) "  #define ", forall_mem_singleton.mpr (by decide)⟩⟩
  | @selects mode choice found _ _ hvalid =>
    obtain ⟨-, -, hchoice, hnamed, hcurrent⟩ := hn.symbols hvalid
    refine contents_of_lines fun p hp => ?_
    rcases mem_append.mp hp with hp | hp
    · obtain ⟨current, hmem, rfl⟩ := List.mem_map.mp hp
      exact ⟨_, rfl, splices_name (hcurrent current (mem_toList.mp hmem)) "#undef "⟩
    · obtain rfl := mem_singleton.mp hp
      exact ⟨_, rfl, splices_name (hnamed.symbol hchoice) "#define "⟩

/-- What holds of the lines of commands, of the heads of blocks and of the lines around blocks holds of every
line of a printout. -/
theorem Prints.forall_contents {S : Statement → Prop} {P : String → Prop}
    (hleaf : ∀ {past parent index how n c pieces}, Stands past parent index how n c → S n.statement →
      Says options c n pieces → ∀ content ∈ contents pieces, P content)
    (hhead : ∀ {c s opening}, Heads c s opening → P (opening ++ " \x7b")) (hbrace : P "\x7d")
    (hoption : ∀ {symbol}, IsWord symbol → P ("#ifdef " ++ symbol)) (hendif : P "#endif")
    (hprints : Prints options past parent index how ns pieces) (hs : ∀ s ∈ statements ns, S s) :
    ∀ content ∈ contents pieces, P content := by
  induction hprints with
  | nil => exact forall_mem_nil _
  | @leaf _ _ _ _ n _ _ _ _ hn hwording _ ih =>
    obtain ⟨s, place, body⟩ := n
    obtain ⟨hs, -, hrest⟩ := forall_statements_cons.mp hs
    rw [contents, allReading_append, forall_mem_append]
    exact ⟨hleaf hn hs hwording, ih hrest⟩
  | @block _ _ _ _ _ n _ _ _ _ _ hn hwraps _ _ _ ihinner ih =>
    obtain ⟨s, place, body⟩ := n
    obtain ⟨-, hbody, hrest⟩ := forall_statements_cons.mp hs
    rw [contents, allReading_append, forall_mem_append]
    refine ⟨?_, ih hrest⟩
    cases hwraps with
    | braces hopens =>
      rw [allReading, reading, allReading, append_nil, forall_mem_cons, forall_mem_append, forall_mem_singleton]
      exact ⟨hhead hopens, ihinner hbody, hbrace⟩
    | choose => exact ihinner hbody
    | @option mode found choice _ hhow hvalid =>
      obtain ⟨hname, -, hchoice, hnamed, -⟩ := hn.symbols hvalid
      have hsymbol : mode.symbol choice = found.symbol choice := by rw [Mode.symbol, Mode.symbol, hname]
      rw [allReading, reading, allReading, append_nil, forall_mem_cons, forall_mem_append, forall_mem_singleton,
        hsymbol]
      exact ⟨hoption (hnamed.symbol hchoice), ihinner hbody, hendif⟩

theorem Prints.whole (hprints : Prints options past parent index how ns pieces)
    (hcopied : ∀ s ∈ statements ns, s.splices options = false) : ∀ content ∈ contents pieces, splices content = false :=
  hprints.forall_contents Says.whole (fun _ => splices_append rfl (by decide) _) (by decide)
    (fun hword => splices_name hword _) (by decide) hcopied

theorem PrintsProgram.whole {header definitions : List Piece}
    (hprints : PrintsProgram options past index ns header definitions)
    (hcopied : ∀ s ∈ statements ns, s.splices options = false) :
    (∀ content ∈ contents header, splices content = false) ∧
      ∀ content ∈ contents definitions, splices content = false := by
  induction hprints with
  | nil => exact ⟨forall_mem_nil _, forall_mem_nil _⟩
  | method hn hhead hinner _ ih =>
    obtain ⟨-, hbody, hrest⟩ := forall_statements_cons.mp hcopied
    obtain ⟨hheader, hdefinitions⟩ := ih hrest
    refine ⟨forall_mem_cons.mpr ⟨splices_append rfl (by decide) _, hheader⟩, ?_⟩
    rw [contents, allReading, reading, cons_append, forall_mem_cons,
      forall_mem_append, forall_mem_append, forall_mem_singleton]
    exact ⟨splices_append rfl (by decide) _, ⟨hinner.whole hbody, by decide⟩, hdefinitions⟩
  | @other _ _ n _ _ _ _ hmethod hnode _ ih =>
    obtain ⟨s, place, body⟩ := n
    obtain ⟨hs, hbody, hrest⟩ := forall_statements_cons.mp hcopied
    obtain ⟨hheader, hdefinitions⟩ := ih hrest
    rw [contents, allReading_append, forall_mem_append]
    refine ⟨⟨hnode.whole (forall_statements_cons.mpr ⟨hs, hbody, ?_⟩), hheader⟩, hdefinitions⟩
    exact forall_mem_nil _

end Printer

end CirOutline
