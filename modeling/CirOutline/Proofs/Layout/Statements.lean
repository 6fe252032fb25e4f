import CirOutline.Proofs.Layout.WellFormed
import CirOutline.Proofs.Token.Lexeme

/-!
The statements of a program that was read. They stand in a well formed forest, and a run of the tokens
spells each of them out, so what runs of tokens can spell holds of every statement. Two such facts:
methods stand at the top level only, and names start as words do.
-/

namespace CirOutline

open List Node

variable {reader : LineReader} {types : List String} {P : Statement → Prop} {s : Statement}

def Node.statements (ns : List Node) : List Statement := (Node.listing 0 ns).map ListedNode.statement

theorem Node.statements_listing (ns : List Node) (depth : Nat) :
    (Node.listing depth ns).map ListedNode.statement = Node.statements ns := by
  rw [Node.statements]
  generalize 0 = other
  induction ns using forest_induction generalizing depth other with
  | nil => rfl
  | cons s location body ns ihbody ihns =>
    simp only [Node.listing, Node.entries, map_append, map_cons]
    rw [ihbody (depth + 1) (other + 1), ihns depth other]

theorem Node.statements_cons (s : Statement) (location : Option Location) (body ns : List Node) :
    Node.statements (.mk s location body :: ns) = s :: (Node.statements body ++ Node.statements ns) := by
  rw [Node.statements, Node.listing, Node.entries, map_append, map_cons, statements_listing, statements_listing]
  rfl

theorem Node.forall_statements_cons {s : Statement} {location : Option Location} {body ns : List Node} :
    (∀ t ∈ Node.statements (.mk s location body :: ns), P t) ↔
      P s ∧ (∀ t ∈ Node.statements body, P t) ∧ ∀ t ∈ Node.statements ns, P t := by
  rw [statements_cons, forall_mem_cons, forall_mem_append]

theorem Node.statements_append (ns ms : List Node) : statements (ns ++ ms) = statements ns ++ statements ms := by
  simp [statements, listing_append]

theorem Node.statements_split (n : Node) (ns : List Node) :
    statements (n :: ns) = statements [n] ++ statements ns :=
  statements_append [n] ns

theorem Node.forall_statements {ns : List Node} : (∀ s ∈ Node.statements ns, P s) ↔
      ∀ n ∈ ns, P n.statement ∧ ∀ s ∈ Node.statements n.body, P s := by
  induction ns with
  | nil => simp [Node.statements, Node.listing]
  | cons n ns ih =>
    obtain ⟨s, location, body⟩ := n
    rw [statements_cons, forall_mem_cons, forall_mem_append, ih, forall_mem_cons, ← and_assoc]
    rfl

theorem readProgram_spelled {tokens : List Token} {file : String} {lines : List String} {program : Program}
    (h : readProgram tokens file lines = .ok program) :
    ∀ s ∈ Node.statements program.nodes, ∃ run, run <:+: tokens ∧ s.Spelled (Token.ink run) := by
  intro s hs
  obtain ⟨e, he, rfl⟩ := mem_map.mp hs
  obtain ⟨run, -, hrun, hspelled, -⟩ := (readProgram_wellFormed h).2 e he
  exact ⟨run, hrun, hspelled⟩

/-! ### Methods -/

def Statement.isMethod : Statement → Bool
  | method .. => true
  | _ => false

def Node.MethodsOutside (forest : List Node) : Prop :=
  ∀ n ∈ forest, ∀ s ∈ Node.statements n.body, s.isMethod = false

section

variable {siblings ns : List Node} {depth : Nat} (h : AllWellFormed reader depth types siblings ns)
include h

theorem Node.AllWellFormed.forall_statement : ∀ s ∈ statements ns, s.Proper ∧ (0 < depth → s.isMethod = false) := by
  induction ns using forest_induction generalizing reader depth types siblings with
  | nil => simp [Node.statements, listing]
  | cons s location body ns ihbody ihns =>
    obtain ⟨⟨hproper, hallowed, -, hbody⟩, hns⟩ := h
    rw [forall_statements_cons]
    refine ⟨⟨hproper, fun hdepth => ?_⟩, fun t ht => ?_, ihns hns⟩
    · cases s with
      | method name parameters returnType => exact absurd hallowed.2 hdepth.ne'
      | _ => rfl
    · obtain ⟨hproper, hmethod⟩ := ihbody hbody t ht
      exact ⟨hproper, fun _ => hmethod (Nat.succ_pos depth)⟩

theorem Node.AllWellFormed.methodsOutside : MethodsOutside ns := by
  induction ns generalizing types siblings with
  | nil => exact fun n hn => absurd hn not_mem_nil
  | cons n ns ih =>
    obtain ⟨s, location, body⟩ := n
    obtain ⟨⟨-, -, -, hbody⟩, hns⟩ := h
    exact forall_mem_cons.mpr ⟨fun t ht => (hbody.forall_statement t ht).2 (Nat.succ_pos depth), ih hns⟩

end

/-! ### Names -/

def Statement.Worded : Statement → Prop
  | assignment name _ | call name _ | structType name => Text.startsWord name = true
  | _ => True

theorem exists_of_spelled {ts : List Token} (h : s.Spelled ts) {mark : Mark}
    (hmark : ∀ loose, mark ∈ Mark.ink (s.marks loose)) : ∃ t ∈ ts, mark.Fits t := by
  obtain ⟨loose, hfits⟩ := h
  have hmem := hmark loose
  generalize Mark.ink (s.marks loose) = marks at hfits hmem
  induction hfits with
  | nil => exact absurd hmem not_mem_nil
  | @cons first t marks ts hfirst _ ih =>
    rcases mem_cons.mp hmem with rfl | hmem
    · exact ⟨t, mem_cons_self, hfirst⟩
    · obtain ⟨u, hu, hfit⟩ := ih hmem
      exact ⟨u, mem_cons_of_mem t hu, hfit⟩

theorem Statement.Spelled.worded {ts : List Token} (h : s.Spelled ts)
    (hlexeme : ∀ t ∈ ts, t.kind.Lexeme t.raw.toList) : s.Worded := by
  have hword : ∀ name, (∀ loose, Mark.word name ∈ Mark.ink (s.marks loose)) →
      Text.startsWord name = true := by
    intro name hmark
    obtain ⟨t, ht, hkind, rfl⟩ := exists_of_spelled h hmark
    exact Text.startsWord_of_lexeme hkind (hlexeme t ht)
  cases s with
  | assignment name expression | call name arguments | structType name =>
    exact hword name fun loose => by simp [Statement.marks, Mark.ink, Mark.isGap]
  | _ => trivial

theorem readProgram_statements {source file : String} {tokens : List Token} {lines : List String}
    {program : Program} (htokens : tokenize source file = .ok tokens)
    (h : readProgram tokens file lines = .ok program) :
    Node.MethodsOutside program.nodes ∧ ∀ s ∈ Node.statements program.nodes, s.Worded := by
  refine ⟨(readProgram_wellFormed h).1.methodsOutside, fun s hs => ?_⟩
  obtain ⟨run, hrun, hspelled⟩ := readProgram_spelled h s hs
  exact hspelled.worded fun t ht => tokenize_lexeme htokens t (hrun.subset (mem_of_mem_filter ht))

end CirOutline
