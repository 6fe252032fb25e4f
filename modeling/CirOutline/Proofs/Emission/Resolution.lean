import CirOutline.Proofs.Compilation
import CirOutline.Proofs.Emission.HeldCounters
import CirOutline.Proofs.Emission.Scoping

/-!
Name resolution is static scoping. Wherever an emission of a program that was read comes to an
assignment or to a loop over a range, the variables in sight are those that `resolve` finds among the
statements before. So `resolve` decides which assignments fail, which of them become definitions, and
which loops declare their variables.
-/

namespace CirOutline

open List Node Statement

variable {e' e : Emitter} {place : Option Location} {ns : List Node} {parent : List Nat} {how : Option Mode}
  {n : Node} {past : List Passed} {index : Nat} {v : Visit} {name : String}

/-! ### Trees that were read -/

mutual
def Node.Trim : Node → Prop
  | .mk s _ body => (s.opensBlock = false → body = []) ∧ AllTrim body

def Node.AllTrim : List Node → Prop
  | [] => True
  | n :: ns => n.Trim ∧ AllTrim ns
end

theorem Node.allTrim_iff : AllTrim ns ↔ ∀ n ∈ ns, n.Trim := by
  induction ns with
  | nil => simp [AllTrim]
  | cons n ns ih => rw [AllTrim, ih, forall_mem_cons]

theorem Node.AllWellFormed.trim {reader : LineReader} {depth : Nat} {types : List String}
    {siblings : List Node} (h : AllWellFormed reader depth types siblings ns) : AllTrim ns := by
  induction ns using forest_induction generalizing reader depth types siblings with
  | nil => trivial
  | cons s location body ns ihbody ihns =>
    obtain ⟨⟨-, -, hholds, hbody⟩, hns⟩ := h
    refine ⟨⟨fun hclosed => ?_, ihbody hbody⟩, ihns hns⟩
    cases s with
    | structType name => cases hclosed
    | _ => exact hholds hclosed

namespace Emission

/-- The nodes of a block as a program that was read has them: lines that may stand there, blocks only
where they belong, and methods at the top level only. -/
structure Sane (parent : List Nat) (how : Option Mode) (ns : List Node) : Prop where
  readable : AllReadable (blockReader how) ns
  trim : AllTrim ns
  methods : ∀ n ∈ ns, (n.statement.isMethod = true → parent = []) ∧
    ∀ s ∈ statements n.body, s.isMethod = false

namespace Sane

section

variable (h : Sane parent how (n :: ns))
include h

theorem tail : Sane parent how ns :=
  ⟨h.readable.2, h.trim.2, (forall_mem_cons.mp h.methods).2⟩

theorem head : Sane parent how [n] :=
  ⟨⟨h.readable.1, trivial⟩, ⟨h.trim.1, trivial⟩, by
    rw [forall_mem_singleton]
    exact (forall_mem_cons.mp h.methods).1⟩

theorem body (index : Nat) {how' : Option Mode}
    (hreader : n.statement.bodyReader = blockReader how') : Sane (index :: parent) how' n.body := by
  obtain ⟨s, location, body⟩ := n
  have hmethods := forall_statements.mp (h.methods _ mem_cons_self).2
  refine ⟨?_, h.trim.1.2, fun m hm => ⟨fun hmethod => ?_, (hmethods m hm).2⟩⟩
  · rw [← hreader]
    exact h.readable.1.2.2
  · exact absurd (hmethod.symm.trans (hmethods m hm).1) (by decide)

end

end Sane

theorem sane_of_read {tokens : List Token} {file : String} {lines : List String} {program : Program}
    (h : readProgram tokens file lines = .ok program) : Sane [] none program.nodes :=
  have hforest := (readProgram_wellFormed h).1
  ⟨hforest.readable, hforest.trim, fun n hn => ⟨fun _ => rfl, hforest.methodsOutside n hn⟩⟩

variable {options : Options}

theorem block_safe (h : Sane parent how ns) (he : e.Sound) :
    Safe options (fun _ => True) (block options how ns) e := by
  have hsafe : (AllReadable .statements ns → Safe options (fun _ => True) (nodes options ns) e) ∧
      (AllReadable .options ns → ∀ mode, Safe options (fun _ => True) (modeOptions options mode ns) e) :=
    nodes_safe ns he (Nat.le_refl _) fun _ _ => trivial
  cases how with
  | none => exact hsafe.1 h.readable
  | some mode => exact hsafe.2 h.readable mode

theorem Entered.sound {inside : Emitter} (h : Entered n e how inside) (he : e.Sound)
    (hproper : n.statement.Proper) : inside.Sound := by
  have hdeclare : ∀ (bs : List Binding) (scope : Scope), (∀ b ∈ bs, b.name.isSome = true) →
      scope.Named → (bs.foldl Scope.declare scope).Named := by
    intro bs
    induction bs with
    | nil => exact fun _ _ h => h
    | cons b bs ih =>
      intro scope hbs hscope
      rw [forall_mem_cons] at hbs
      exact ih _ hbs.2 (Scope.named_declare hbs.1 hscope)
  have hnamed : (e.sight.entering n.statement).scope.Named := by
    obtain ⟨s, location, body⟩ := n
    cases s with
    | method name parameters returnType =>
      refine hdeclare _ _ ?_ ⟨he.named.1, by simp [Scope.enterMethod]⟩
      intro b hb
      obtain ⟨p, -, hp⟩ := mem_filterMap.mp hb
      obtain ⟨type, -, rfl⟩ := Option.map_eq_some_iff.mp hp
      rfl
    | forLoop start stop =>
      obtain ⟨⟨t, rest, rfl, hword⟩, -⟩ := hproper
      by_cases hlacks : e.sight.scope.lacks (.forLoop (t :: rest) stop) = true
      · simp only [Node.statement, Sight.entering, hlacks, if_true]
        exact Scope.named_declare (by simp [Statement.iterator?, hword]) he.named
      · simp only [Node.statement, Sight.entering, hlacks]
        exact he.named
    | _ => exact he.named
  refine ⟨?_, h.capacity ▸ he.capacity⟩
  rw [← h.sight] at hnamed
  exact hnamed

theorem Entered.agrees {inside : Emitter} (hentered : Entered n e how inside)
    (h : Agrees past parent index e.sight) (hmethods : n.statement.isMethod = true → parent = []) :
    Agrees (⟨index :: parent, n.statement⟩ :: past) (index :: parent) 0 inside.sight := by
  rw [hentered.sight]
  cases hmethod : n.statement.isMethod with
  | true =>
    obtain rfl := hmethods hmethod
    exact h.entering_method hmethod
  | false =>
    have hname : n.statement.isStructType = false := by
      cases hs : n.statement with
      | structType name => exact absurd hs (hentered.unnamed name)
      | _ => rfl
    exact h.entering_block hentered.opens hname hmethod hentered.inMethod

theorem visit_agrees (hsane : Sane parent how (n :: ns)) (he : e.Sound) (h : Agrees past parent index e.sight)
    (hrun : visit options how n (fun how' => block options how' n.body) e = .ok () e')
    (hbody : ∀ (how' : Option Mode) (inside e2 : Emitter), Sane (index :: parent) how' n.body →
      inside.Sound → Agrees (⟨index :: parent, n.statement⟩ :: past) (index :: parent) 0 inside.sight →
      block options how' n.body inside = .ok () e2 →
      Agrees ((walkAll (index :: parent) 0 n.body).reverse ++ ⟨index :: parent, n.statement⟩ :: past)
        (index :: parent) (0 + n.body.length) e2.sight) :
    Agrees ((n.walk (index :: parent)).reverse ++ past) parent (index + 1) e'.sight := by
  have hproper : n.statement.Proper := hsane.readable.1.proper
  obtain ⟨s, location, body⟩ := n
  rcases visit_enters he.capacity hrun with hsettled | ⟨how', inside, e2, -, hentered, hblock, hafter⟩
  · rw [reverse_walk, hsettled.sight]
    rcases hsettled.closed with hclosed | ⟨name, member, hs, hmember, hfield⟩
    · obtain rfl : body = [] := hsane.trim.1.1 hclosed
      exact h.after (.inl hclosed)
    · obtain rfl : s = .structType name := hs
      obtain rfl : body = [member] := hmember
      obtain ⟨t, place, inner⟩ := member
      have hclosed : t.opensBlock = false := opensBlock_of_isField hfield
      obtain rfl : inner = [] := hsane.trim.1.2.1.1 hclosed
      exact h.after_struct hclosed
  · have hnews := exists_suffix_of_walkAll (index :: parent) body
    have hmethods := (hsane.methods _ mem_cons_self).1
    have hinner := hbody how' inside e2 (hsane.body index hentered.reader) (hentered.sound he hproper)
      (hentered.agrees h hmethods) hblock
    rw [reverse_walk, hafter]
    cases hmethod : s.isMethod with
    | true =>
      obtain rfl := hmethods hmethod
      exact h.leaving_method hnews hinner hmethod
    | false => exact h.leaving_block hnews hinner hmethod

theorem visit_sound (hsane : Sane parent how (n :: ns)) (he : e.Sound)
    (hrun : visit options how n (fun how' => block options how' n.body) e = .ok () e') :
    e'.Sound := by
  have hone : block options how [n] e = .ok () e' := by
    rw [block_cons, bind_of_ok hrun, block_nil]
    rfl
  exact ((block_safe hsane.head he).ok hone).sound he

theorem block_agrees (ns : List Node) : ∀ {how : Option Mode} {parent : List Nat} {index : Nat}
    {past : List Passed} {e e' : Emitter}, Sane parent how ns → e.Sound →
    Agrees past parent index e.sight → block options how ns e = .ok () e' →
    Agrees ((walkAll parent index ns).reverse ++ past) parent (index + ns.length) e'.sight := by
  induction ns using forest_induction with
  | nil =>
    intro how parent index past e e' _ _ h hrun
    rw [block_nil] at hrun
    cases hrun
    exact h
  | cons s location body ns ihbody ihns =>
    intro how parent index past e e' hsane he h hrun
    rw [block_cons] at hrun
    obtain ⟨_, e1, hvisit, hrun⟩ := exists_of_bind_ok hrun
    have hfirst := visit_agrees hsane he h hvisit fun how' inside e2 hbody hinside hagrees hblock =>
      ihbody hbody hinside hagrees hblock
    have hrest := ihns hsane.tail (visit_sound hsane he hvisit) hfirst hrun
    rw [walkAll, reverse_append, append_assoc, length_cons]
    rw [show index + (ns.length + 1) = index + 1 + ns.length by omega]
    exact hrest

/-! ### Visits -/

section

variable (h : Reached options how e past parent index ns v)
include h

theorem Reached.agrees (hsane : Sane parent how ns) (he : e.Sound) (hagrees : Agrees past parent index e.sight) :
    Agrees v.past v.parent v.index v.emitter.sight ∧ v.emitter.Sound := by
  induction h with
  | here => exact ⟨hagrees, he⟩
  | @next how e e' past parent index n ns v hpassed _ ih =>
    refine ih hsane.tail (visit_sound hsane he hpassed) ?_
    exact visit_agrees hsane he hagrees hpassed fun _ _ _ hbody hinside hblock =>
      block_agrees n.body hbody hinside hblock
  | @inside how how' e inside past parent index n ns v henters _ ih =>
    have hentered := (visit_opens options how n he.capacity).before henters
    have hmethods := (hsane.methods _ mem_cons_self).1
    exact ih (hsane.body index hentered.reader) (hentered.sound he hsane.readable.1.proper)
      (hentered.agrees hagrees hmethods)

theorem Reached.stops {e2 : Emitter} {stop : Stop} (he : e.Sound)
    (hstop : visit options v.how v.node (fun how' => block options how' v.node.body) v.emitter =
      .error stop e2) : ∃ e', block options how ns e = .error stop e' :=
  h.error he.capacity hstop

end

theorem exists_reached_of_undeclared {similar : List String} {shown : Option String} (ns : List Node)
    (parent : List Nat) (index : Nat) (past : List Passed) (he : e.Sound)
    (hrun : block options how ns e = .error (.diagnosed ⟨.undeclaredName name similar, place, shown⟩) e') :
    ∃ v, Reached options how e past parent index ns v ∧ v.node.location = place ∧
      (∃ expression, v.node.statement = .assignment name expression) ∧
      v.emitter.context.scope.lookup (some name) = none := by
  obtain ⟨v, hreached, hblamed⟩ := exists_reached_of_stop ns parent index past he.capacity hrun
  obtain ⟨hplace, hassignment, hlookup⟩ := hblamed.undeclared name similar place shown rfl
  exact ⟨v, hreached, hplace.symm, hassignment, hlookup⟩

/-! ### Assignments and loops -/

def Visit.run (options : Options) (v : Visit) : Emission Unit :=
  visit options v.how v.node fun how => block options how v.node.body

/-- The line of an assignment: a statement for a mutable variable, a definition for another. -/
def assignmentLine (name : String) (expression : List Token) (b : Binding) : String :=
  if b.isMutable then name ++ " = " ++ Expression.render expression ++ ";"
  else "#define " ++ name ++ " ((" ++ b.type.text ++ ") " ++ Expression.render expression ++ ")"

/-- What the meaning of its name makes of an assignment: without one it fails; with one its line is
written, unless there is no room for the margin or a mutable variable is assigned outside methods. -/
structure Visit.Assigns (options : Options) (v : Visit) (name : String) (expression : List Token)
    (meaning : Option Binding) : Prop where
  lookup : v.emitter.context.scope.lookup (some name) = meaning
  undeclared : meaning = none ↔ ∃ similar shown e', v.run options v.emitter =
    .error (.diagnosed ⟨.undeclaredName name similar, v.node.location, shown⟩) e'
  line : ∀ b, meaning = some b → Ends (v.run options) v.emitter
    (fun _ e' => e'.written v.emitter.stream = v.emitter.written v.emitter.stream ++
      [shift (options.indentWidth * v.emitter.groups) (assignmentLine name expression b)])
    fun stop _ => (∃ b, stop = .broken b) ∨ b.isMutable = true ∧ v.emitter.inMethod = false ∧ ∃ shown,
      stop = .diagnosed ⟨.topLevelStatement ("assign to mutable '" ++ name ++ "'"), v.node.location, shown⟩

/-- What the meaning of its variable makes of a loop over a range: the opening line declares the
variable if it has no meaning. -/
structure Visit.Loops (options : Options) (v : Visit) (start stop : List Token)
    (meaning : Option Binding) : Prop where
  lookup : v.emitter.context.scope.lookup (iterator? start) = meaning
  opening : ∀ how inside, Enters (visit options v.how v.node) v.emitter how inside →
    inside.written v.emitter.stream = v.emitter.written v.emitter.stream ++
      [shift (options.indentWidth * v.emitter.groups) (loopOpening start stop meaning.isNone)]

theorem assignment_undeclared (options : Options) (hnamed : e.context.scope.Named)
    (hlookup : e.context.scope.lookup (some name) = none) (expression : List Token)
    (place : Option Location) : ∃ similar shown, assignment options name expression place e =
      .error (.diagnosed ⟨.undeclaredName name similar, place, shown⟩) e := by
  rw [assignment, get_bind]
  simp only [hlookup, Scope.similar_eq hnamed name]
  exact ⟨_, _, rfl⟩

theorem assignment_written (options : Options) {b : Binding}
    (hlookup : e.context.scope.lookup (some name) = some b) (expression : List Token)
    (place : Option Location) : Ends (assignment options name expression place) e
      (fun _ e' => e' = e.write (shift (options.indentWidth * e.groups) (assignmentLine name expression b)))
      fun stop _ => (∃ b, stop = .broken b) ∨ b.isMutable = true ∧ e.inMethod = false ∧ ∃ shown,
        stop = .diagnosed ⟨.topLevelStatement ("assign to mutable '" ++ name ++ "'"), place, shown⟩ := by
  have hemit := (emit_writes options (assignmentLine name expression b) e).mono (fun _ _ h => h)
    fun stop _ (h : ∃ b, stop = .broken b) =>
      show _ ∨ b.isMutable = true ∧ e.inMethod = false ∧ ∃ shown,
        stop = .diagnosed ⟨.topLevelStatement ("assign to mutable '" ++ name ++ "'"), place, shown⟩ from .inl h
  apply Ends.bind_get
  simp only [hlookup]
  unfold assignmentLine at hemit ⊢
  cases hmutable : b.isMutable with
  | false =>
    simp only [hmutable, Bool.false_eq_true, if_false] at hemit ⊢
    exact hemit
  | true =>
    simp only [hmutable, if_true] at hemit ⊢
    refine Ends.bind (Q := fun _ e' => e' = e) (Ends.bind_get ?_) fun _ e' he' => he' ▸ hemit
    cases hinside : e.inMethod with
    | true => exact Ends.pure rfl
    | false => exact Ends.of_error rfl (.inr ⟨trivial, rfl, _, rfl⟩)

theorem written_note (entries : Journal) (e : Emitter) : (Emitter.note entries e).written = e.written := by
  funext stream
  cases stream <;> rfl

/-- The body of a noted statement is entered from the emitter with the note. -/
theorem inside_of_noted {text : String} {step : (Option Mode → Emission Unit) → Emission Unit} {inside : Emitter}
    {B : Journal → Option Mode → Emitter → Prop} {A : Journal → Emitter → Emitter → Prop}
    (h : ∀ entries, Opens step (Emitter.note entries e) (fun _ => False) (B entries) (A entries) fun _ => True)
    (henters : Enters (fun inner => note .debug text >>= fun _ => step inner) e how inside) :
    ∃ entries, B entries how inside := by
  have hopens : Opens (fun inner => note .debug text >>= fun _ => step inner) e (fun _ => False)
      (fun how inside => ∃ entries, B entries how inside) (fun _ _ => True) fun _ => True :=
    .noted fun entries => (h entries).mono (fun _ h => h) (fun _ _ h => ⟨entries, h⟩) fun _ _ _ => trivial
  exact hopens.before henters

theorem Visit.assigns (options : Options) {expression : List Token} (he : v.emitter.Sound)
    (hs : v.node.statement = .assignment name expression) :
    v.Assigns options name expression (v.emitter.context.scope.lookup (some name)) := by
  obtain ⟨past, parent, index, how, ⟨s, place, body⟩, e⟩ := v
  obtain rfl : s = .assignment name expression := hs
  -- the emission notes the node and then handles the assignment, in either kind of block
  have hrun : ∃ e1 : Emitter, e.Still e1 ∧ e1.groups = e.groups ∧ e1.stream = e.stream ∧
      e1.written = e.written ∧ ∀ inner, visit options how (.mk (.assignment name expression) place body)
        inner e = assignment options name expression place e1 := by
    refine ⟨Emitter.note [⟨.emission, .debug, "Generating " ++
      (Node.mk (.assignment name expression) place body).tag⟩] e, ⟨rfl, rfl, rfl⟩, rfl, rfl,
      written_note _ e, fun inner => ?_⟩
    cases how <;> rfl
  obtain ⟨e1, hstill, hgroups, hstream, hwritten, hvisit⟩ := hrun
  have hnamed : e1.context.scope.Named := hstill.scope ▸ he.named
  have hline : ∀ b, e.context.scope.lookup (some name) = some b → Ends
      (Visit.run options ⟨past, parent, index, how, .mk (.assignment name expression) place body, e⟩) e
      (fun _ e' => e'.written e.stream = e.written e.stream ++
        [shift (options.indentWidth * e.groups) (assignmentLine name expression b)])
      fun stop _ => (∃ b, stop = .broken b) ∨ b.isMutable = true ∧ e.inMethod = false ∧ ∃ shown,
        stop = .diagnosed ⟨.topLevelStatement ("assign to mutable '" ++ name ++ "'"), place, shown⟩ := by
    intro b hlookup
    rw [← hstill.scope] at hlookup
    have hends := assignment_written options hlookup expression place
    rw [hstill.inMethod] at hends
    rw [Ends, Visit.run, hvisit]
    refine hends.weaken fun _ e' he' => ?_
    have hwrite := e1.written_write (shift (options.indentWidth * e1.groups) (assignmentLine name expression b))
    rw [← he', hstream, hwritten, hgroups] at hwrite
    exact hwrite
  refine ⟨rfl, ⟨fun hlookup => ?_, ?_⟩, hline⟩
  · rw [← hstill.scope] at hlookup
    obtain ⟨similar, shown, hstop⟩ := assignment_undeclared options hnamed hlookup expression place
    exact ⟨similar, shown, e1, (hvisit _).trans hstop⟩
  · rintro ⟨similar, shown, e', hstop⟩
    cases hlookup : e.context.scope.lookup (some name) with
    | none => rfl
    | some b =>
      rcases (hline b hlookup).error hstop with ⟨_, hbreak⟩ | ⟨-, -, _, htop⟩
      · cases hbreak
      · cases htop

theorem Visit.loops {start stop : List Token} (hs : v.node.statement = .forLoop start stop) :
    v.Loops options start stop (v.emitter.context.scope.lookup (iterator? start)) := by
  obtain ⟨past, parent, index, how, ⟨s, place, body⟩, e⟩ := v
  obtain rfl : s = .forLoop start stop := hs
  refine ⟨rfl, fun how' inside henters => ?_⟩
  have hsame : Enters (fun inner => note .debug ("Generating " ++
      (Node.mk (.forLoop start stop) place body).tag) >>= fun _ =>
      forLoop options start stop place (inner none)) e how' inside := by
    cases how <;> exact henters
  obtain ⟨entries, -, -, -, -, -, hline⟩ := inside_of_noted (fun entries => forLoop_opens
    (e := Emitter.note entries e) (fun _ _ => trivial) start stop place none) hsame
  rwa [written_note] at hline

end Emission

theorem emitProgram_undeclared {options : Options} {start : Emitter} {forest : List Node} {similar : List String}
    {shown : Option String}
    (h : emitProgram start options forest = (.error (.diagnosed ⟨.undeclaredName name similar, place, shown⟩), e)) :
    ∃ e', Emission.block options none forest start =
      .error (.diagnosed ⟨.undeclaredName name similar, place, shown⟩) e' := by
  have hprogram : Emission.program options forest start =
      .error (.diagnosed ⟨.undeclaredName name similar, place, shown⟩) e := by
    unfold emitProgram at h
    split at h
    · cases h
    · next stop e' hrun =>
      cases h
      exact hrun
  cases hnodes : Emission.nodes options forest start with
  | error stop e' =>
    rw [Emission.program, bind_of_error hnodes] at hprogram
    cases hprogram
    exact ⟨e, hnodes⟩
  | ok _ e' =>
    rw [Emission.program, bind_of_ok hnodes, get_bind] at hprogram
    split_ifs at hprogram <;> cases hprogram

/-- Name resolution is static scoping, in every program that is read. Whatever the emission comes to,
it has passed what stands before. At an assignment or a loop over a range the variables in sight are
those that the statements before declare, which settles what the statement becomes. The emission stops
for an undeclared name exactly if it comes to an assignment to a name that has no meaning there. -/
theorem names_resolve_statically {options : Options} {source file : String} {lines : List String}
    {tokens : List Token} {program : Program} {start : Emitter}
    (htokens : tokenize source file = .ok tokens)
    (hread : readProgram tokens file lines = .ok program) (hstart : options.emitter lines = .ok start) :
    (∀ v, Emission.Reached options none start [] [] 0 program.nodes v →
      (∃ rest, Node.walkAll [] 0 program.nodes =
        v.past.reverse ++ v.node.walk (v.index :: v.parent) ++ rest) ∧
      (∀ name expression, v.node.statement = .assignment name expression →
        v.Assigns options name expression (resolve v.past v.parent (some name))) ∧
      ∀ first last, v.node.statement = .forLoop first last →
        v.Loops options first last (resolve v.past v.parent (Statement.iterator? first))) ∧
    ∀ name place, (∃ similar shown e, emitProgram start options program.nodes =
        (.error (.diagnosed ⟨.undeclaredName name similar, place, shown⟩), e)) ↔
      ∃ v, Emission.Reached options none start [] [] 0 program.nodes v ∧ v.node.location = place ∧
        (∃ expression, v.node.statement = .assignment name expression) ∧
        resolve v.past v.parent (some name) = none := by
  obtain ⟨hmethods, -⟩ := readProgram_statements htokens hread
  have hforest := (readProgram_wellFormed hread).1
  have hsane : Emission.Sane [] none program.nodes :=
    ⟨hforest.readable, hforest.trim, fun n hn => ⟨fun _ => rfl, hmethods n hn⟩⟩
  obtain ⟨pool, hcreate, rfl⟩ : ∃ pool, TemporaryPool.create options.poolSize = .ok pool ∧
      Emitter.start pool lines = start := by
    unfold Options.emitter at hstart
    cases hcreate : TemporaryPool.create options.poolSize with
    | error b =>
      rw [hcreate] at hstart
      cases hstart
    | ok pool =>
      rw [hcreate] at hstart
      cases hstart
      exact ⟨pool, rfl, rfl⟩
  have hsound : (Emitter.start pool lines).Sound := by
    refine ⟨⟨?_, ?_⟩, TemporaryPool.create_ok hcreate⟩ <;> simp [Emitter.start, Scope.empty]
  have hagrees := fun v (hv : Emission.Reached options none (Emitter.start pool lines) [] [] 0 program.nodes v) =>
    hv.agrees hsane hsound (Agrees.start pool)
  have hlookup : ∀ v, Emission.Reached options none (Emitter.start pool lines) [] [] 0 program.nodes v → ∀ name,
      v.emitter.context.scope.lookup name = resolve v.past v.parent name := fun v hv name =>
    (hagrees v hv).1.lookup name
  refine ⟨fun v hv => ⟨by simpa using hv.walk, ?_, ?_⟩, fun name place => ⟨?_, ?_⟩⟩
  · intro name expression hs
    rw [← hlookup v hv]
    exact Emission.Visit.assigns options (hagrees v hv).2 hs
  · intro first last hs
    rw [← hlookup v hv]
    exact Emission.Visit.loops hs
  · rintro ⟨similar, shown, e, hrun⟩
    obtain ⟨e', hblock⟩ := emitProgram_undeclared hrun
    obtain ⟨v, hv, hplace, hs, hnone⟩ :=
      Emission.exists_reached_of_undeclared program.nodes [] 0 [] hsound hblock
    exact ⟨v, hv, hplace, hs, hlookup v hv (some name) ▸ hnone⟩
  · rintro ⟨v, hv, rfl, ⟨expression, hs⟩, hnone⟩
    have hassigns := Emission.Visit.assigns options (hagrees v hv).2 hs
    rw [hlookup v hv] at hassigns
    obtain ⟨similar, shown, e, hstop⟩ := hassigns.undeclared.mp hnone
    obtain ⟨e', hblock⟩ := hv.stops hsound hstop
    refine ⟨similar, shown, e', ?_⟩
    have hprogram : Emission.program options program.nodes (Emitter.start pool lines) =
        .error (.diagnosed ⟨.undeclaredName name similar, v.node.location, shown⟩) e' := bind_of_error hblock
    rw [emitProgram, hprogram]

/-- The variable of a loop has no meaning after the loop. -/
theorem names_resolve_statically_after_loop :
    ∃ tokens program start,
      tokenize "METHOD m(Int n):\n  FOR i = 0 TO 3:\n    n = i\n  i = 1" "loop" = .ok tokens ∧
      readProgram tokens "loop" [] = .ok program ∧ ({} : Options).emitter = .ok start ∧
      ∃ v, Emission.Reached {} none start [] [] 0 program.nodes v ∧
        v.node.location = some ⟨"loop", 4, 3⟩ ∧
        (∃ expression, v.node.statement = .assignment "i" expression) ∧
        resolve v.past v.parent (some "i") = none := by
  obtain ⟨tokens, program, htokens, hread, hstop⟩ := exists_read
    "METHOD m(Int n):\n  FOR i = 0 TO 3:\n    n = i\n  i = 1" "loop"
    (fun _ program => (({} : Options).emitter.toOption.map fun start => (emitProgram start {} program.nodes).1) =
      some (.error (.diagnosed ⟨.undeclaredName "i" ["n"], some ⟨"loop", 4, 3⟩, none⟩)))
    (by decide +kernel)
  obtain ⟨start, hstart, hstop⟩ := Option.map_eq_some_iff.mp hstop
  have hstart := eq_ok_of_toOption hstart
  have hvisit := (names_resolve_statically htokens hread hstart).2 "i" (some ⟨"loop", 4, 3⟩)
  exact ⟨tokens, program, start, htokens, hread, hstart, hvisit.mp ⟨["n"], none, _, Prod.ext hstop rfl⟩⟩

end CirOutline
