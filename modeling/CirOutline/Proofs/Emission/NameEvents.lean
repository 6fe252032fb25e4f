import CirOutline.Proofs.Emission.CLine
import CirOutline.Proofs.Emission.Resolution

/-!
What a program does to names, foretold by static scoping. `Passed.event?` says from the statements
before a statement alone what the line that it becomes will do: declare names, write one, or open a
block. The lines of an emission do just that, in order: those of the statements outside methods in the
header, those of the methods in the code. Outside methods nothing is done but declaring: a statement that
runs is refused there, and an emission that gives a value has come to every statement.
-/

namespace CirOutline

open List CLine Node Passed

variable {f : Passed} {index : Nat} {s : Statement} {n : Node} {parent : List Nat} {past : List Passed}

/-! ### Events of pieces -/

namespace Piece

mutual
def events : Piece → List NameEvent
  | line content => (event? content).toList
  | braces opening inner => (event? (opening ++ " \x7b")).toList ++ allEvents inner ++ [.closes]
  | option _ inner => allEvents inner
  | fallback .. => []

def allEvents : List Piece → List NameEvent
  | [] => []
  | p :: ps => p.events ++ allEvents ps
end

theorem allEvents_append (ps qs : List Piece) : allEvents (ps ++ qs) = allEvents ps ++ allEvents qs := by
  induction ps with
  | nil => rfl
  | cons p ps ih => rw [cons_append, allEvents, allEvents, ih, append_assoc]

theorem filterMap_event?_allLines (width : Int) (ps : List Piece) :
    (allLines width ps).filterMap event? = allEvents ps := by
  have hshift : ∀ (gap : Int) (lines : List String),
      (lines.map (shift gap)).filterMap event? = lines.filterMap event? := by
    intro gap lines
    rw [filterMap_map]
    congr 1
    funext line
    exact event?_shift gap line
  have hcons : ∀ (line : String) (lines : List String), (line :: lines).filterMap event? =
      (event? line).toList ++ lines.filterMap event? := by
    intro line lines
    rw [filterMap_cons]
    cases event? line <;> rfl
  have hend : event? "#endif" = none :=
    show event? ("#endif" ++ "") = none from event?_of_directive (c := 'e') rfl (by decide) ""
  induction ps using Piece.pieces_induction with
  | nil => rfl
  | line content ps ih => rw [allLines, lines, allEvents, events, singleton_append, hcons, ih]
  | braces opening inner ps ihinner ih =>
    rw [allLines, lines, allEvents, events, filterMap_append, hcons, filterMap_append, hshift,
      ihinner, ih, hcons, event?_brace]
    simp
  | option symbol inner ps ihinner ih =>
    rw [allLines, lines, allEvents, events, filterMap_append, hcons, filterMap_append, hshift,
      ihinner, ih, hcons, event?_of_directive rfl (by decide), hend]
    simp
  | fallback condition symbol ps ih =>
    rw [allLines, lines, allEvents, events, filterMap_append, hcons, hcons, hcons, ih,
      event?_of_directive rfl (by decide), event?_of_directive rfl (by decide), hend]
    simp

end Piece

/-! ### Events of statements -/

namespace NameEvent

def isOpening : NameEvent → Bool
  | opens .. => true
  | _ => false

def isDeclaration : NameEvent → Bool
  | declares _ => true
  | _ => false

def names : NameEvent → List String
  | declares names | opens names _ => names
  | _ => []

end NameEvent

/-- What the line of a statement does to names, given what names mean and the number of counters in
use. -/
def Statement.event? (meaning : Option String → Option Binding) (counters : Nat) :
    Statement → Option NameEvent
  | declaration _ names _ => some (.declares names)
  | assignment name _ => if (meaning (some name)).any Binding.isMutable then some (.writes name) else none
  | method _ parameters _ => some (.opens (parameters.map Parameter.name) none)
  | ifThen _ | elseIf _ | otherwise | whileLoop _ => some (.opens [] none)
  | forLoop start _ =>
    if (meaning (iterator? start)).isSome then some (.opens [] (some (Scope.nameText (iterator? start))))
    else some (.opens [Scope.nameText (iterator? start)] none)
  | repeatLoop _ => some (.opens [TemporaryPool.name counters] none)
  | _ => none

theorem Statement.isOpening_event? (h : s.opensBlock = false ∨ s.isStructType = true)
    {meaning : Option String → Option Binding} {counters : Nat} :
    (s.event? meaning counters).any NameEvent.isOpening = false := by
  cases s with
  | assignment name expression =>
    simp only [event?]
    split_ifs <;> rfl
  | comment | declaration | call | pass | returns | setMode | defaultMode | defineMode | structType => rfl
  | _ => simp [opensBlock, isStructType] at h

theorem Node.suffix_of_mem_walk {path : List Nat} (h : f ∈ n.walk path) : path <:+ f.path := by
  obtain ⟨s, location, body⟩ := n
  rw [walk, mem_cons] at h
  rcases h with rfl | h
  · exact suffix_rfl
  · obtain ⟨j, -, -, hj⟩ := exists_of_mem_walkAll body _ _ f h
    exact (suffix_cons j path).trans hj

namespace Passed

def isMember (past : List Passed) (f : Passed) : Bool :=
  past.any fun g => g.statement.isStructType && g.path.isSuffixOf f.path

def repeats (past : List Passed) (parent : List Nat) : Nat :=
  past.countP fun g => g.statement.isRepeat && g.path.isSuffixOf parent

theorem inMethod_after (h : InMethod ((n.walk (index :: parent)).reverse ++ past) parent) : InMethod past parent :=
  (inMethod_append fun _ hf => ⟨index, suffix_of_mem_walk (mem_reverse.mp hf)⟩).mp h

theorem Fresh.next (h : Fresh past parent index) (n : Node) :
    Fresh ((n.walk (index :: parent)).reverse ++ past) parent (index + 1) :=
  h.after fun _ hf => suffix_of_mem_walk (mem_reverse.mp hf)

theorem repeats_append {news : List Passed} (past : List Passed) (h : ∀ f ∈ news, ∃ j, (j :: parent) <:+ f.path) :
    repeats (news ++ past) parent = repeats past parent := by
  have hnone : news.countP (fun g => g.statement.isRepeat && g.path.isSuffixOf parent) = 0 := by
    rw [countP_eq_zero]
    intro f hf hcounts
    obtain ⟨j, hj⟩ := h f hf
    rw [Bool.and_eq_true, isSuffixOf_iff_suffix] at hcounts
    exact Nat.not_succ_le_self _ (hj.trans hcounts.2).length_le
  rw [repeats, countP_append, hnone, Nat.zero_add]
  rfl

theorem repeats_entering (h : Fresh past parent index) (s : Statement) :
    repeats (⟨index :: parent, s⟩ :: past) (index :: parent) =
      repeats past parent + if s.isRepeat then 1 else 0 := by
  have hsame : repeats past (index :: parent) = repeats past parent := by
    apply countP_congr
    intro f hf
    rw [Bool.and_eq_true, Bool.and_eq_true, isSuffixOf_iff_suffix, isSuffixOf_iff_suffix, h.suffix_child hf]
  rw [repeats, countP_cons]
  simp only [isSuffixOf_iff_suffix.mpr (suffix_refl (index :: parent)), Bool.and_true]
  exact congrArg (· + _) hsame

def event? (past : List Passed) (f : Passed) : Option NameEvent :=
  if isMember past f then none
  else f.statement.event? (resolve past f.path.tail) (repeats past f.path.tail)

def target? (past : List Passed) (f : Passed) : Option String := (f.event? past).bind NameEvent.target?

def steps : (past : List Passed) → List Passed → List (List Passed × Passed)
  | _, [] => []
  | past, f :: rest => (past, f) :: steps (f :: past) rest

theorem steps_append (past fs gs : List Passed) :
    steps past (fs ++ gs) = steps past fs ++ steps (fs.reverse ++ past) gs := by
  induction fs generalizing past with
  | nil => rfl
  | cons f fs ih => simp [steps, ih]

end Passed

theorem Agrees.not_isMember {v : Sight} (h : Agrees past parent index v) (s : Statement) :
    isMember past ⟨index :: parent, s⟩ = false := by
  rw [isMember, any_eq_false]
  intro f hf hnamed
  rw [Bool.and_eq_true, isSuffixOf_iff_suffix] at hnamed
  exact h.unnamed f hf hnamed.1 ((h.fresh.suffix_child hf).mp hnamed.2)

namespace Node

mutual
def events (past : List Passed) (path : List Nat) : Node → List NameEvent
  | mk s _ body =>
    (event? past ⟨path, s⟩).toList ++ allEvents (⟨path, s⟩ :: past) path 0 body ++
      if (event? past ⟨path, s⟩).any NameEvent.isOpening then [.closes] else []

def allEvents (past : List Passed) (parent : List Nat) (index : Nat) : List Node → List NameEvent
  | [] => []
  | n :: ns => n.events past (index :: parent) ++
    allEvents ((n.walk (index :: parent)).reverse ++ past) parent (index + 1) ns
end

theorem walkAll_cons (s : Statement) (location : Option Location) (body ns : List Node)
    (parent : List Nat) (index : Nat) : walkAll parent index (mk s location body :: ns) =
      ⟨index :: parent, s⟩ :: walkAll (index :: parent) 0 body ++ walkAll parent (index + 1) ns := by
  rw [walkAll, walk]

theorem filterMap_allEvents {β : Type} (g : NameEvent → Option β) (hg : g .closes = none)
    (ns : List Node) : ∀ (past : List Passed) (parent : List Nat) (index : Nat),
    (allEvents past parent index ns).filterMap g =
      (steps past (walkAll parent index ns)).filterMap fun x => (x.2.event? x.1).bind g := by
  induction ns using forest_induction with
  | nil => intros; rfl
  | cons s location body ns ihbody ihns =>
    intro past parent index
    have hcloses : ∀ b : Bool, ((if b then [.closes] else [] : List NameEvent)).filterMap g = [] := by
      rintro (_ | _) <;> simp [hg]
    have hown : ∀ (event : Option NameEvent) (rest : List β),
        event.toList.filterMap g ++ rest = (event.bind g).toList ++ rest := by
      rintro (_ | event) rest
      · rfl
      · rw [Option.toList_some, filterMap_cons, Option.bind_some]
        cases g event <;> rfl
    rw [allEvents, events, walkAll_cons, cons_append, steps, steps_append, walk]
    simp only [filterMap_append, hcloses, ihbody, ihns, append_assoc, filterMap_cons,
      reverse_cons, singleton_append]
    rw [hown]
    cases (event? past ⟨index :: parent, s⟩).bind g <;> rfl

end Node

/-! ### Outside methods -/

/-- The statement becomes code that runs, by the variables in sight. -/
def Statement.isExecutable (scope : Scope) : Statement → Bool
  | assignment name _ => (scope.lookup (some name)).any Binding.isMutable
  | call .. | returns _ | ifThen _ | elseIf _ | otherwise | whileLoop _ | forLoop .. | repeatLoop _ => true
  | _ => false

def Passed.Outside (past : List Passed) (f : Passed) : Prop :=
  ∀ g ∈ f :: past, g.statement.isMethod = true → ¬ g.path <:+ f.path

def Passed.Idle (past : List Passed) (f : Passed) : Prop :=
  ∀ event ∈ f.event? past, event.isDeclaration = true

theorem Passed.idle_of_event
    (h : ∀ event ∈ f.statement.event? (resolve past f.path.tail) (repeats past f.path.tail),
      event.isDeclaration = true) : f.Idle past := by
  intro event hevent
  rw [event?] at hevent
  split_ifs at hevent
  · cases hevent
  · exact h event hevent

namespace Emission

variable {options : Options} {e : Emitter}

theorem requireMethod_outside (h : e.inMethod = false) (action : String) (place : Option Location) :
    requireMethod action place e = .error (.diagnosed (.quoting e.lines (.topLevelStatement action) place)) e := by
  rw [requireMethod, get_bind, h]
  rfl

theorem statement_refused (options : Options) (hruns : s.isExecutable e.context.scope = true)
    (houtside : e.inMethod = false) (place : Option Location) (body : List Node) (inner : Emission Unit)
    (choices : Mode → Emission Unit) : ∃ action, statement options s place body inner choices e =
      .error (.diagnosed (.quoting e.lines (.topLevelStatement action) place)) e := by
  have hrefused : ∀ (action : String) (next : Emission Unit), (requireMethod action place >>= fun _ => next) e =
      .error (.diagnosed (.quoting e.lines (.topLevelStatement action) place)) e := fun action next =>
    bind_of_error (requireMethod_outside houtside action place)
  cases s with
  | assignment name expression =>
    obtain ⟨b, hfound, hmutable⟩ := (Option.any_eq_true _ _).mp hruns
    refine ⟨"assign to mutable '" ++ name ++ "'", ?_⟩
    rw [statement, assignment, get_bind]
    simp only [hfound, hmutable, if_true]
    exact hrefused _ _
  | call name arguments | returns expression | ifThen condition | elseIf condition | otherwise
  | whileLoop condition | forLoop start stop | repeatLoop count =>
    exact ⟨_, hrefused _ _⟩
  | _ => cases hruns

theorem statement_idle (h : Agrees past parent index e.sight) (houtside : e.inMethod = false)
    (hmethod : s.isMethod = false) (place : Option Location) (body : List Node) (inner : Emission Unit)
    (choices : Mode → Emission Unit) :
    Ends (statement options s place body inner choices) e
      (fun _ _ => Idle past ⟨index :: parent, s⟩) fun _ _ => True := by
  have hsilent : s.event? (CirOutline.resolve past parent) (repeats past parent) = none →
      Idle past ⟨index :: parent, s⟩ := by
    intro hnone
    refine idle_of_event fun event hevent => ?_
    exact absurd (hnone.symm.trans hevent) nofun
  cases hruns : s.isExecutable e.context.scope with
  | true =>
    obtain ⟨action, hstop⟩ := statement_refused options hruns houtside place body inner choices
    exact Ends.of_error hstop trivial
  | false =>
    refine Ends.always (fun _ _ => ?_) fun _ _ => trivial
    cases s with
    | declaration typeName names isMutable =>
      refine idle_of_event fun event hevent => ?_
      obtain rfl := Option.mem_some_iff.mp hevent
      rfl
    | assignment name expression =>
      have hlookup : e.context.scope.lookup (some name) = CirOutline.resolve past parent (some name) :=
        h.lookup (some name)
      rw [Statement.isExecutable, hlookup] at hruns
      exact hsilent (by simp [Statement.event?, hruns])
    | method name parameters returnType => cases hmethod
    | ifThen | elseIf | otherwise | whileLoop | forLoop | repeatLoop => cases hruns
    | _ => exact hsilent rfl

theorem visit_idle (h : Agrees past parent index e.sight) (houtside : e.inMethod = false)
    (hmethod : n.statement.isMethod = false) (how : Option Mode) (inner : Option Mode → Emission Unit) :
    Ends (visit options how n inner) e
      (fun _ _ => Idle past ⟨index :: parent, n.statement⟩) fun _ _ => True := by
  obtain ⟨s, place, body⟩ := n
  have hnoted : Ends (noted options s place body (inner none) fun mode => inner (some mode)) e
      (fun _ _ => Idle past ⟨index :: parent, s⟩) fun _ _ => True := by
    unfold noted
    split
    · exact statement_idle h houtside hmethod place body _ _
    · exact Ends.bind_modify (statement_idle (e := Emitter.note _ e) h houtside hmethod place body _ _)
  cases how with
  | none => exact hnoted
  | some mode =>
    cases s with
    | option choice =>
      refine Ends.always (fun _ _ => idle_of_event fun event hevent => ?_) fun _ _ => trivial
      cases hevent
    | _ => exact hnoted

def Visit.step (v : Visit) : List Passed × Passed := (v.past, ⟨v.index :: v.parent, v.node.statement⟩)

theorem block_visited (ns : List Node) : ∀ {how : Option Mode} {parent : List Nat} {index : Nat}
    {past : List Passed} {e e' : Emitter}, AllTrim ns →
    e.context.pool.capacity ≤ TemporaryPool.capacityBound → block options how ns e = .ok () e' →
    ∀ x ∈ steps past (walkAll parent index ns), x.2.isMember x.1 = true ∧ x.2.statement.isField = true ∨
        ∃ v, Reached options how e past parent index ns v ∧ v.step = x := by
  induction ns using forest_induction with
  | nil =>
    intro how parent index past e e' _ _ _ x hx
    cases hx
  | cons s location body ns ihbody ihns =>
    intro how parent index past e e' htrim he hrun
    rw [block_cons] at hrun
    obtain ⟨_, e1, hvisit, hrun⟩ := exists_of_bind_ok hrun
    have hrest := @ihns how parent (index + 1)
      (((mk s location body).walk (index :: parent)).reverse ++ past) e1 e' htrim.2
      ((visit_keeps he hvisit).1.le.trans he) hrun
    rw [walkAll, walk, cons_append, steps, steps_append]
    rw [walk, reverse_cons, append_assoc, singleton_append] at hrest
    rw [forall_mem_cons, forall_mem_append]
    refine ⟨.inr ⟨_, .here, rfl⟩, fun x hx => ?_, fun x hx => (hrest x hx).imp_right ?_⟩
    · rcases visit_enters he hvisit with hsettled | ⟨how', inside, e2, henters, hentered, hblock, -⟩
      · rcases hsettled.closed with hclosed | ⟨name, member, hs, hmember, hfield⟩
        · obtain rfl : body = [] := htrim.1.1 hclosed
          cases hx
        · obtain rfl : s = .structType name := hs
          obtain rfl : body = [member] := hmember
          obtain ⟨t, place, inner⟩ := member
          obtain rfl : inner = [] := htrim.1.2.1.1 (Statement.opensBlock_of_isField hfield)
          rw [show walkAll (index :: parent) 0 [.mk t place []] = [⟨0 :: index :: parent, t⟩] from rfl] at hx
          obtain rfl := mem_singleton.mp hx
          exact .inl ⟨by simp [isMember, Statement.isStructType], hfield⟩
      · refine (ihbody htrim.1.2 (hentered.capacity.le.trans he) hblock x hx).imp_right ?_
        rintro ⟨v, hv, hstep⟩
        exact ⟨v, .inside henters hv, hstep⟩
    · rintro ⟨v, hv, hstep⟩
      refine ⟨v, .next hvisit ?_, hstep⟩
      rw [walk, reverse_cons, append_assoc, singleton_append]
      exact hv

theorem block_idle (ns : List Node) {how : Option Mode} {e e' : Emitter} (hsane : Sane parent how ns) (he : e.Sound)
    (h : Agrees past parent index e.sight) (hrun : block options how ns e = .ok () e') :
    ∀ x ∈ steps past (walkAll parent index ns), x.2.Outside x.1 → x.2.Idle x.1 := by
  intro x hx houtside
  rcases block_visited ns hsane.trim he.capacity hrun x hx with ⟨hmember, -⟩ | ⟨v, hv, rfl⟩
  · intro event hevent
    rw [Passed.event?, hmember, if_pos rfl] at hevent
    cases hevent
  · obtain ⟨hagrees, -⟩ := hv.agrees hsane he h
    obtain ⟨e2, hvisit⟩ := hv.ok he.capacity hrun
    have hmethod : v.node.statement.isMethod = false := by
      rw [Bool.eq_false_iff]
      intro hmethod
      exact houtside _ mem_cons_self hmethod suffix_rfl
    have hinside : v.emitter.inMethod = false := by
      rw [Bool.eq_false_iff]
      intro hinside
      obtain ⟨f, hf, hmethod, hpath⟩ := hagrees.method.mp hinside
      exact houtside f (mem_cons_of_mem _ hf) hmethod (hpath.trans (suffix_cons v.index v.parent))
    exact (visit_idle hagrees hinside hmethod v.how _).ok hvisit

end Emission


end CirOutline
