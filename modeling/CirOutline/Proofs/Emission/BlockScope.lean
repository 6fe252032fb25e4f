import CirOutline.Proofs.Emission.Foretold

/-!
Block scope. In C a name is in sight from its declaration to the end of the block in braces around it;
here the block that counts is the whole method. `NameEvent.wellScoped` follows the blocks of an emitted text
and says whether every variable that is written at run time is in sight there. `Passed.Visible` says it
of the source text: a declaration was passed, and no block in braces around it has been left. The two
agree for every program that is emitted.
-/

namespace CirOutline

open List Passed Node NameEvent Printer

variable {f : Passed} {top : List String}

/-! ### Scopes of an emitted text -/

namespace NameEvent

/-- The names of the open blocks after an event, the innermost block first. -/
def after (scopes : List (List String)) : NameEvent → List (List String)
  | declares names => (names ++ scopes.headD []) :: scopes.tail
  | writes _ => scopes
  | opens names _ => names :: scopes
  | closes => scopes.tail

def scan (scopes : List (List String)) (events : List NameEvent) : List (List String) :=
  events.foldl after scopes

/-- Every variable that is written is in sight where it is written. -/
def wellScoped : (scopes : List (List String)) → List NameEvent → Bool
  | _, [] => true
  | scopes, event :: rest =>
    event.target?.all (fun name => scopes.any fun scope => scope.contains name) &&
      wellScoped (event.after scopes) rest

theorem scan_append (scopes : List (List String)) (events more : List NameEvent) :
    scan scopes (events ++ more) = scan (scan scopes events) more :=
  foldl_append

theorem wellScoped_append (events more : List NameEvent) : ∀ scopes : List (List String),
    wellScoped scopes (events ++ more) = (wellScoped scopes events && wellScoped (scan scopes events) more) := by
  induction events with
  | nil => intro scopes; rfl
  | cons event events ih =>
    intro scopes
    rw [cons_append, wellScoped, wellScoped, ih, Bool.and_assoc]
    rfl

theorem wellScoped_of_targetless {events : List NameEvent} : ∀ {scopes : List (List String)},
    events.filterMap target? = [] → wellScoped scopes events = true := by
  induction events with
  | nil => intros; rfl
  | cons event events ih =>
    intro scopes h
    rw [filterMap_eq_nil_iff, forall_mem_cons, ← filterMap_eq_nil_iff] at h
    rw [wellScoped, h.1, ih h.2]
    rfl

end NameEvent

/-! ### Names in sight -/

def Statement.isBraced : Statement → Bool
  | method .. | ifThen _ | elseIf _ | otherwise | whileLoop _ | forLoop .. | repeatLoop _ => true
  | _ => false

namespace Passed

/-- The names that a statement declares or binds in its block, by the statements before it. -/
def binds (past : List Passed) (f : Passed) : List String := (f.event? past).elim [] names

/-- A statement that declares or binds the name was passed, and every block in braces that it stands
in or opens is around `parent`. -/
def Visible (past : List Passed) (parent : List Nat) (name : String) : Prop :=
  ∃ g before, g :: before <:+ past ∧ name ∈ g.binds before ∧
    ∀ h ∈ g :: before, h.statement.isBraced = true → h.path <:+ g.path → h.path <:+ parent

variable {past news : List Passed} {parent : List Nat} {index : Nat} {name : String} {s : Statement}

theorem suffix_append_cases {g : Passed} {before : List Passed} (h : g :: before <:+ news ++ past) :
    g :: before <:+ past ∨ (g ∈ news ∧ past <:+ before) := by
  rcases suffix_or_suffix_of_suffix h (suffix_append news past) with hpast | hlonger
  · exact .inl hpast
  · rcases suffix_cons_iff.mp hlonger with hsame | ⟨more, rfl⟩
    · exact .inl (hsame ▸ suffix_rfl)
    · obtain ⟨first, hfirst⟩ := h
      have hnews : first ++ g :: more = news := by
        rw [← cons_append, ← append_assoc] at hfirst
        exact append_cancel_right hfirst
      exact .inr ⟨hnews ▸ by simp, suffix_append more past⟩

theorem Visible.mono (h : Visible past parent name) (news : List Passed) : Visible (news ++ past) parent name := by
  obtain ⟨g, before, hsuffix, hname, hopen⟩ := h
  exact ⟨g, before, hsuffix.trans (suffix_append news past), hname, hopen⟩

theorem visible_congr {other : List Nat}
    (h : ∀ f ∈ past, f.statement.isBraced = true → (f.path <:+ parent ↔ f.path <:+ other)) :
    Visible past parent name ↔ Visible past other name := by
  refine exists_congr fun g => exists_congr fun before => and_congr_right fun hsuffix =>
    and_congr_right fun _ => forall₂_congr fun f hf => forall_congr' fun hbraced => ?_
  rw [h f (hsuffix.subset hf) hbraced]

theorem visible_inside (h : Fresh past parent index) :
    Visible (⟨index :: parent, s⟩ :: past) (index :: parent) name ↔
      name ∈ binds past ⟨index :: parent, s⟩ ∨ Visible past parent name := by
  have hpast : Visible past (index :: parent) name ↔ Visible past parent name :=
    visible_congr fun f hf _ => h.suffix_child hf
  rw [← hpast]
  constructor
  · rintro ⟨g, before, hsuffix, hname, hopen⟩
    rcases suffix_cons_iff.mp hsuffix with hsame | hsuffix
    · obtain ⟨rfl, rfl⟩ := List.cons.inj hsame
      exact .inl hname
    · exact .inr ⟨g, before, hsuffix, hname, hopen⟩
  · rintro (hname | hvisible)
    · exact ⟨_, past, suffix_rfl, hname, fun f _ _ hpath => hpath⟩
    · exact hvisible.mono [_]

theorem visible_after_braces (hbraced : s.isBraced = true) (hnews : ∀ f ∈ news, (index :: parent) <:+ f.path) :
    Visible (news ++ ⟨index :: parent, s⟩ :: past) parent name ↔ Visible past parent name := by
  have hclosed : ¬ (index :: parent) <:+ parent := by
    intro hsuffix
    exact Nat.not_succ_le_self _ hsuffix.length_le
  constructor
  · rintro ⟨g, before, hsuffix, hname, hopen⟩
    rcases suffix_append_cases hsuffix with hsuffix | ⟨hg, hbefore⟩
    · rcases suffix_cons_iff.mp hsuffix with hsame | hsuffix
      · obtain ⟨rfl, rfl⟩ := List.cons.inj hsame
        exact absurd (hopen _ mem_cons_self hbraced suffix_rfl) hclosed
      · exact ⟨g, before, hsuffix, hname, hopen⟩
    · have hmem := mem_cons_of_mem g (hbefore.subset mem_cons_self)
      exact absurd (hopen _ hmem hbraced (hnews g hg)) hclosed
  · intro hvisible
    rw [append_cons]
    exact hvisible.mono _

theorem visible_after_plain (h : Fresh past parent index) (hplain : s.isBraced = false)
    (hnews : ∀ f ∈ news, ∃ j, (j :: index :: parent) <:+ f.path) :
    Visible (news ++ ⟨index :: parent, s⟩ :: past) (index :: parent) name ↔
      Visible (news ++ ⟨index :: parent, s⟩ :: past) parent name := by
  refine visible_congr fun f hf hbraced => ?_
  rcases mem_append.mp hf with hf | hf
  · obtain ⟨j, hj⟩ := hnews f hf
    have hdeep := hj.length_le
    simp only [length_cons] at hdeep
    constructor
    · intro hsuffix
      have := hsuffix.length_le
      simp only [length_cons] at this
      omega
    · intro hsuffix
      have := hsuffix.length_le
      omega
  · rcases mem_cons.mp hf with rfl | hf
    · cases hplain.symm.trans hbraced
    · exact h.suffix_child hf

/-- What a statement writes at run time is held from the start or in sight. -/
def InScope (held : String → Prop) (past : List Passed) (f : Passed) : Prop :=
  ∀ name ∈ f.target? past, held name ∨ Visible past f.path.tail name

theorem event?_of_braced (hmember : f.isMember past = true → f.statement.opensBlock = false)
    (hbraced : f.statement.isBraced = true) : ∃ names target, f.event? past = some (.opens names target) := by
  obtain ⟨path, s⟩ := f
  cases hinside : isMember past ⟨path, s⟩ with
  | true =>
    have hopens := hmember hinside
    cases s <;> cases hopens <;> cases hbraced
  | false =>
    rw [event?, hinside, if_neg (by simp)]
    cases s with
    | forLoop start stop =>
      simp only [Statement.event?]
      split_ifs
      · exact ⟨_, _, rfl⟩
      · exact ⟨_, _, rfl⟩
    | method | ifThen | elseIf | otherwise | whileLoop | repeatLoop => exact ⟨_, _, rfl⟩
    | _ => cases hbraced

theorem event?_of_plain (past : List Passed) (hplain : f.statement.isBraced = false) :
    f.event? past = none ∨ (∃ names, f.event? past = some (.declares names)) ∨
      ∃ target, f.event? past = some (.writes target) := by
  obtain ⟨path, s⟩ := f
  cases hinside : isMember past ⟨path, s⟩ with
  | true => exact .inl (by simp [event?, hinside])
  | false =>
    rw [event?, hinside, if_neg (by simp)]
    cases s with
    | declaration typeName names isMutable => exact .inr (.inl ⟨names, rfl⟩)
    | assignment target expression =>
      simp only [Statement.event?]
      split_ifs
      · exact .inr (.inr ⟨target, rfl⟩)
      · exact .inl rfl
    | method | ifThen | elseIf | otherwise | whileLoop | forLoop | repeatLoop => cases hplain
    | _ => exact .inl rfl

end Passed

/-! ### Following the blocks -/

namespace NameEvent

theorem wellScoped_toList (scopes : List (List String)) (event : Option NameEvent) :
    wellScoped scopes event.toList = true ↔
      ∀ name ∈ event.bind target?, ∃ scope ∈ scopes, name ∈ scope := by
  cases event with
  | none => simp [wellScoped]
  | some event => cases htarget : event.target? <;> simp [wellScoped, htarget]

theorem exists_mem_after {event : NameEvent} (h : event ≠ .closes) (scopes : List (List String))
    (name : String) : (∃ scope ∈ event.after scopes, name ∈ scope) ↔
      name ∈ event.names ∨ ∃ scope ∈ scopes, name ∈ scope := by
  cases event with
  | declares names =>
    cases scopes with
    | nil => simp [after, NameEvent.names]
    | cons top outer => simp [after, NameEvent.names, or_assoc]
  | writes target => simp [after, names]
  | opens names target => simp [after, NameEvent.names]
  | closes => exact absurd rfl h

end NameEvent

open Passed in
/-- The names of the open blocks are those that are held from the start or in sight. -/
def Covers (held : String → Prop) (past : List Passed) (parent : List Nat)
    (scopes : List (List String)) : Prop :=
  ∀ name, (∃ scope ∈ scopes, name ∈ scope) ↔ held name ∨ Visible past parent name

/-- Events lead from the names of the open blocks to those at a later position, and what the events
write is in sight exactly if it is for the statements that they come from. -/
structure Follows (held : String → Prop) (past : List Passed) (scopes : List (List String))
    (events : List NameEvent) (fs : List Passed) (parent : List Nat)
    (later : List (List String)) : Prop where
  scan : scan scopes events = later
  covers : Covers held (fs.reverse ++ past) parent later
  wellScoped : wellScoped scopes events = true ↔ ∀ x ∈ steps past fs, x.2.InScope held x.1

namespace Follows

variable {held : String → Prop} {past fs gs : List Passed} {parent middle : List Nat} {index : Nat}
  {scopes between later : List (List String)} {events more : List NameEvent}

theorem append (h : Follows held past scopes events fs middle between)
    (hmore : Follows held (fs.reverse ++ past) between more gs parent later) :
    Follows held past scopes (events ++ more) (fs ++ gs) parent later := by
  refine ⟨?_, ?_, ?_⟩
  · rw [scan_append, h.scan, hmore.scan]
  · rw [reverse_append, append_assoc]
    exact hmore.covers
  · rw [wellScoped_append, Bool.and_eq_true, h.scan, h.wellScoped, hmore.wellScoped,
      steps_append, forall_mem_append]

theorem own (hfresh : Fresh past parent index) (hcovers : Covers held past parent scopes)
    (s : Statement) {event : Option NameEvent}
    (hevent : event? past ⟨index :: parent, s⟩ = event) (hcloses : event ≠ some .closes) :
    Follows held past scopes event.toList [⟨index :: parent, s⟩] (index :: parent)
      (event.elim scopes (after scopes)) := by
  refine ⟨?_, fun name => ?_, ?_⟩
  · cases event <;> rfl
  · rw [reverse_singleton, singleton_append, visible_inside hfresh, or_left_comm, ← hcovers name, binds, hevent]
    cases event with
    | none => simp
    | some event => exact exists_mem_after (fun h => hcloses (h ▸ rfl)) scopes name
  · rw [wellScoped_toList, steps, steps, forall_mem_singleton, InScope, Passed.target?, hevent]
    exact forall₂_congr fun name _ => hcovers name

theorem node {outer : List (List String)} (hfresh : Fresh past parent index)
    (hcovers : Covers held past parent (top :: outer)) (s : Statement) (location : Option Location)
    (body : List Node) (hmember : isMember past ⟨index :: parent, s⟩ = true → s.opensBlock = false)
    (hbody : ∀ first others, Covers held (⟨index :: parent, s⟩ :: past) (index :: parent) (first :: others) →
      ∃ last, Follows held (⟨index :: parent, s⟩ :: past) (first :: others)
        (allEvents (⟨index :: parent, s⟩ :: past) (index :: parent) 0 body)
        (walkAll (index :: parent) 0 body) (index :: parent) (last :: others)) :
    ∃ last, Follows held past (top :: outer) (Node.events past (index :: parent) (.mk s location body))
      ((Node.mk s location body).walk (index :: parent)) parent (last :: outer) := by
  have hnews := exists_suffix_of_walkAll (index :: parent) body
  rw [walk, Node.events]
  cases hbraced : s.isBraced with
  | true =>
    obtain ⟨names, target, hevent⟩ :=
      event?_of_braced (f := ⟨index :: parent, s⟩) hmember hbraced
    have hown := own hfresh hcovers s hevent (by simp)
    obtain ⟨last, hinside⟩ := hbody names (top :: outer) hown.covers
    refine ⟨top, ?_⟩
    rw [hevent]
    have hopen := hown.append hinside
    have hclose : Follows held
        ((([⟨index :: parent, s⟩] : List Passed) ++ walkAll (index :: parent) 0 body).reverse ++ past)
        (last :: top :: outer) [.closes] [] parent (top :: outer) := by
      refine ⟨rfl, fun name => ?_, by simp [NameEvent.wellScoped, NameEvent.target?, Passed.steps]⟩
      rw [hcovers name]
      simp only [reverse_nil, nil_append, singleton_append, reverse_cons, append_assoc]
      rw [visible_after_braces hbraced fun f hf => ?_]
      obtain ⟨j, hj⟩ := hnews f hf
      exact (suffix_cons j _).trans hj
    have hall := hopen.append hclose
    rw [append_nil] at hall
    exact hall
  | false =>
    obtain ⟨first, hfirst, hcloses, hopens⟩ : ∃ first,
        (event? past ⟨index :: parent, s⟩).elim (top :: outer) (after (top :: outer)) =
          first :: outer ∧ event? past ⟨index :: parent, s⟩ ≠ some .closes ∧
        (event? past ⟨index :: parent, s⟩).any isOpening = false := by
      rcases event?_of_plain past (f := ⟨index :: parent, s⟩) hbraced with
        hevent | ⟨names, hevent⟩ | ⟨target, hevent⟩
      · exact ⟨top, by simp [hevent], by simp [hevent], by simp [hevent]⟩
      · exact ⟨names ++ top, by simp [hevent, NameEvent.after], by simp [hevent], by simp [hevent, isOpening]⟩
      · exact ⟨top, by simp [hevent, NameEvent.after], by simp [hevent], by simp [hevent, isOpening]⟩
    have hown := own hfresh hcovers s rfl hcloses
    rw [hfirst] at hown
    obtain ⟨last, hinside⟩ := hbody first outer hown.covers
    have hopen := hown.append hinside
    refine ⟨last, ?_⟩
    rw [hopens, if_neg (by simp), append_nil]
    refine ⟨hopen.scan, fun name => ?_, hopen.wellScoped⟩
    rw [hopen.covers name]
    simp only [singleton_append, reverse_cons, append_assoc]
    rw [visible_after_plain hfresh hbraced hnews]

theorem block (ns : List Node) : ∀ {past : List Passed} {parent : List Nat} {index : Nat}
    {top : List String} {outer : List (List String)}, Fresh past parent index →
    (∀ x ∈ steps past (walkAll parent index ns), x.2.isMember x.1 = true → x.2.statement.opensBlock = false) →
    Covers held past parent (top :: outer) →
    ∃ last, Follows held past (top :: outer) (allEvents past parent index ns)
      (walkAll parent index ns) parent (last :: outer) := by
  induction ns using forest_induction with
  | nil =>
    intro past parent index top outer _ _ hcovers
    exact ⟨top, rfl, hcovers, by simp [allEvents, NameEvent.wellScoped, walkAll, Passed.steps]⟩
  | cons s location body ns ihbody ihns =>
    intro past parent index top outer hfresh hmembers hcovers
    rw [walkAll] at hmembers ⊢
    rw [steps_append, forall_mem_append] at hmembers
    obtain ⟨hfirst, hrest⟩ := hmembers
    rw [walk, steps, forall_mem_cons] at hfirst
    obtain ⟨between, hnode⟩ := node hfresh hcovers s location body hfirst.1 fun first others hinside =>
      ihbody (hfresh.inside s) hfirst.2 hinside
    obtain ⟨last, hnext⟩ := ihns (hfresh.next (.mk s location body)) hrest hnode.covers
    exact ⟨last, hnode.append hnext⟩

theorem tree (n : Node) (hfresh : Fresh past [] index)
    (hmembers : ∀ x ∈ steps past (n.walk [index]), x.2.isMember x.1 = true →
      x.2.statement.opensBlock = false) (hcovers : Covers held past [] [top]) :
    ∃ last, Follows held past [top] (n.events past [index]) (n.walk [index]) [] [last] := by
  have hone := block [n] hfresh (by simpa [walkAll] using hmembers) hcovers
  simpa [allEvents, walkAll] using hone

theorem header (forest : List Node) : ∀ {past : List Passed} {index : Nat} {top : List String},
    Fresh past [] index →
    (∀ x ∈ steps past (walkAll [] index forest), x.2.isMember x.1 = true →
      x.2.statement.opensBlock = false) → Covers held past [] [top] →
    ∃ last, NameEvent.scan [top] (Printer.topEvents false past index forest) = [last] ∧
      Covers held ((walkAll [] index forest).reverse ++ past) [] [last] := by
  induction forest with
  | nil =>
    intro past index top _ _ hcovers
    exact ⟨top, rfl, hcovers⟩
  | cons n rest ih =>
    intro past index top hfresh hmembers hcovers
    rw [walkAll, steps_append, forall_mem_append] at hmembers
    obtain ⟨between, hscan, hbetween⟩ : ∃ between,
        NameEvent.scan [top] (if n.statement.isMethod == false then n.events past [index] else []) =
          [between] ∧ Covers held ((n.walk [index]).reverse ++ past) [] [between] := by
      cases hmethod : n.statement.isMethod with
      | false =>
        obtain ⟨between, hnode⟩ := tree n hfresh hmembers.1 hcovers
        exact ⟨between, hnode.scan, hnode.covers⟩
      | true =>
        refine ⟨top, rfl, fun name => ?_⟩
        obtain ⟨s, location, body⟩ := n
        have hbraced : s.isBraced = true := by
          cases s <;> cases hmethod
          rfl
        rw [hcovers name, walk, reverse_cons, append_assoc, singleton_append,
          visible_after_braces hbraced fun f hf => ?_]
        obtain ⟨j, hj⟩ := exists_suffix_of_walkAll _ body f hf
        exact (suffix_cons j _).trans hj
    obtain ⟨last, hlast, hcovers⟩ := ih (hfresh.next n) hmembers.2 hbetween
    refine ⟨last, ?_, ?_⟩
    · rw [Printer.topEvents, NameEvent.scan_append, hscan, hlast]
    · rw [walkAll, reverse_append, append_assoc]
      exact hcovers

theorem methods (forest : List Node) : ∀ {past : List Passed} {index : Nat} {top : List String},
    Before index past → MethodsOutside forest →
    (∀ x ∈ steps past (walkAll [] index forest), x.2.isMember x.1 = true → x.2.statement.opensBlock = false) →
    AllIdle past (walkAll [] index forest) →
    (∀ name, Visible ((walkAll [] index forest).reverse ++ past) [] name → held name) →
    Covers held past [] [top] →
    ∃ last, Follows held past [top] (topEvents true past index forest)
      (walkAll [] index forest) [] [last] := by
  induction forest with
  | nil =>
    intro past index top _ _ _ _ _ hcovers
    exact ⟨top, rfl, hcovers, by simp [Printer.topEvents, NameEvent.wellScoped, walkAll, Passed.steps]⟩
  | cons n rest ih =>
    intro past index top hbefore houtside hmembers hidle hheld hcovers
    have hfresh : Fresh past [] index := fun g hg => (hbefore g hg).2
    rw [walkAll, steps_append, forall_mem_append] at hmembers
    rw [AllIdle, walkAll, steps_append, forall_mem_append] at hidle
    rw [MethodsOutside, forall_mem_cons] at houtside
    rw [walkAll, reverse_append, append_assoc] at hheld
    obtain ⟨between, hfirst⟩ : ∃ between, Follows held past [top]
        (if n.statement.isMethod == true then n.events past [index] else []) (n.walk [index]) []
        [between] := by
      cases hmethod : n.statement.isMethod with
      | true => exact tree n hfresh hmembers.1 hcovers
      | false =>
        -- what comes into sight outside methods is held, and nothing is written there
        refine ⟨top, rfl, fun name => ?_, ?_⟩
        · rw [hcovers name]
          exact ⟨fun h => h.imp_right fun hvisible => hvisible.mono _,
            fun h => .inl (h.elim id fun hvisible => hheld name (hvisible.mono _))⟩
        · refine iff_of_true rfl fun x hx name hname => ?_
          have hstatements : ∀ s ∈ statements [n], s.isMethod = false := by
            rw [forall_statements, forall_mem_singleton]
            exact ⟨hmethod, houtside.1⟩
          have hquiet := hidle.1 x hx (outside_of_walk hbefore hstatements x hx)
          obtain ⟨event, hevent, htarget⟩ := Option.bind_eq_some_iff.mp hname
          cases event with
          | declares names => cases htarget
          | _ => exact absurd (hquiet _ hevent) (by simp [isDeclaration])
    obtain ⟨last, hnext⟩ := ih (hbefore.next n) houtside.2 hmembers.2 hidle.2 hheld hfirst.covers
    rw [topEvents, walkAll]
    exact ⟨last, hfirst.append hnext⟩

end Follows

/-- The run-time writes of an emitted text are in the scope of C exactly if, for every statement that
writes a variable, the variable is declared outside methods or by a statement that was passed and whose
blocks in braces are all open. -/
theorem writes_follow_block_scope {options : Options} {source file : String} {lines : List String}
    {tokens : List Token} {program : Program} {start e : Emitter} {output : String}
    (htokens : tokenize source file = .ok tokens)
    (hread : readProgram tokens file lines = .ok program) (hstart : options.emitter lines = .ok start)
    (hrun : emitProgram start options program.nodes = (.ok output, e)) :
    output = e.output options.includes ∧
    (NameEvent.wellScoped [[]] ((e.header ++ e.code).filterMap CLine.event?) = true ↔
      ∀ x ∈ Passed.steps [] (Node.walkAll [] 0 program.nodes), ∀ name, x.2.target? x.1 = some name →
        Passed.Visible (Node.walkAll [] 0 program.nodes).reverse [] name ∨
          Passed.Visible x.1 x.2.path.tail name) := by
  have hforetold := emitProgram_foretold htokens hread hstart hrun
  obtain ⟨hmethods, -⟩ := readProgram_statements htokens hread
  have hbefore : Printer.Before 0 [] := fun g hg => (not_mem_nil hg).elim
  obtain ⟨hquiet, -⟩ :=
    Printer.filterMap_topEvents NameEvent.target? rfl (fun _ => rfl) program.nodes hmethods hbefore hforetold.idle
  have hnothing : Covers (fun _ => False) [] [] [[]] := fun name => by simp [Passed.Visible]
  obtain ⟨held, hscan, hheld⟩ := Follows.header program.nodes (fun g hg => (hbefore g hg).2)
    hforetold.members hnothing
  have hcovers : Covers (Passed.Visible (walkAll [] 0 program.nodes).reverse []) [] [] [held] := by
    intro name
    rw [hheld name, append_nil, false_or, or_iff_left]
    simp [Passed.Visible]
  obtain ⟨last, hcode⟩ := Follows.methods program.nodes hbefore hmethods hforetold.members hforetold.idle
    (by simp) hcovers
  refine ⟨?_, ?_⟩
  · obtain ⟨pool, rfl, -⟩ := Options.emitter_start hstart
    obtain ⟨-, -, -, -, -, -, houtput⟩ := emitProgram_wrote hmethods hrun
    exact houtput
  · rw [filterMap_append, hforetold.header, hforetold.code, NameEvent.wellScoped_append, hscan,
      NameEvent.wellScoped_of_targetless hquiet, Bool.true_and, hcode.wellScoped]
    rfl

/-- Variables of the header, parameters, variables of an enclosing block and of a loop are in sight. -/
theorem writes_follow_block_scope_of_nested_blocks :
    ∃ tokens program start output e,
      tokenize ("MUTABLE Int(g)\nMETHOD m(Int n):\n  MUTABLE Int(x)\n  IF n:\n    x = 1\n" ++
        "    FOR i = 0 TO n:\n      i = x\n      n = i\n  g = x") "f" = .ok tokens ∧
      readProgram tokens "f" [] = .ok program ∧ ({} : Options).emitter = .ok start ∧
      emitProgram start {} program.nodes = (.ok output, e) ∧
      (Passed.steps [] (Node.walkAll [] 0 program.nodes)).filterMap (fun x => x.2.target? x.1) =
        ["x", "i", "n", "g"] ∧
      ∀ x ∈ Passed.steps [] (Node.walkAll [] 0 program.nodes), ∀ name, x.2.target? x.1 = some name →
        Passed.Visible (Node.walkAll [] 0 program.nodes).reverse [] name ∨
          Passed.Visible x.1 x.2.path.tail name := by
  refine exists_emitted (fun program _ e => (Passed.steps [] (walkAll [] 0 program.nodes)).filterMap
      (fun x => x.2.target? x.1) = ["x", "i", "n", "g"] ∧
    NameEvent.wellScoped [[]] ((e.header ++ e.code).filterMap CLine.event?) = true) (by decide +kernel) ?_
  rintro tokens program start output e htokens hread hstart hrun ⟨htargets, hscoped⟩
  obtain ⟨-, hvisible⟩ := writes_follow_block_scope htokens hread hstart hrun
  exact ⟨htargets, hvisible.mp hscoped⟩

/-- A variable that is declared in a branch is written after the branch, where C does not see it. -/
theorem write_after_branch_out_of_scope :
    ∃ tokens program start output e,
      tokenize "METHOD m:\n    IF 1:\n        MUTABLE Int(x)\n    x = 5" "<input>" = .ok tokens ∧
      readProgram tokens "<input>" [] = .ok program ∧ ({} : Options).emitter = .ok start ∧
      emitProgram start {} program.nodes = (.ok output, e) ∧
      output = "#include <stdint.h>\n\nvoid m(void);\n\nvoid m(void) \x7b\n    if(1) \x7b\n" ++
        "        int x;\n    \x7d\n    x = 5;\n\x7d" ∧
      NameEvent.wellScoped [[]] ((e.header ++ e.code).filterMap CLine.event?) = false := by
  exact exists_emitted _ (by decide +kernel) fun _ _ _ _ h => h

end CirOutline
