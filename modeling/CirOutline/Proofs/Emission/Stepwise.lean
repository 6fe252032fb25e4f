import CirOutline.Emission.Statement
import CirOutline.Proofs.Alike
import CirOutline.Proofs.Layout.LineReading
import CirOutline.Proofs.Suggestions

/-!
What emissions are made of: they write lines, learn names, open and close groups, hold counters and
define methods. The walk over the statements is made once, for every relation between two emissions
that is `Stepwise`. White space and places reach the journal and the reports only, so the two
emissions may be of trees that say the same; the lines of the source reach the reports only.
-/

namespace CirOutline

open Expression

variable {inner inner' : Emission Unit} {run run' : List Token} {s s' : Statement} {body body' : List Node}
  {fault : Fault}

/-- The state with another journal and other lines of the source. -/
def Emitter.reporting (e : Emitter) (journal : Journal) (lines : List String) : Emitter :=
  { e with journal := journal, lines := lines }

@[simp] theorem Emitter.reporting_context (e : Emitter) (journal : Journal) (lines : List String) :
    (e.reporting journal lines).context = e.context := rfl

@[simp] theorem Emitter.reporting_groups (e : Emitter) (journal : Journal) (lines : List String) :
    (e.reporting journal lines).groups = e.groups := rfl

@[simp] theorem Emitter.reporting_inMethod (e : Emitter) (journal : Journal) (lines : List String) :
    (e.reporting journal lines).inMethod = e.inMethod := rfl

/-- A cause that lies in the source: it is not internal, and no statement lacks a C form. -/
def Fault.ofSource : Fault → Bool
  | .unhandledKind _ => false
  | fault => fault.area != .internal

theorem ofSource_of_resolve {table : TypeTable} {name : String} {dimensions : List String}
    (h : table.resolve name dimensions = .error fault) : fault.ofSource = true := by
  unfold TypeTable.resolve at h
  split at h <;> cases h
  rfl

theorem ofSource_of_get {modes : ModeRegistry} {name : String} (h : modes.get name = .error fault) :
    fault.ofSource = true := by
  unfold ModeRegistry.get at h
  split at h <;> cases h
  rfl

theorem ofSource_of_validate {modes : ModeRegistry} {name option : String}
    (h : modes.validate name option = .error fault) : fault.ofSource = true := by
  unfold ModeRegistry.validate at h
  cases hfound : modes.get name with
  | error fault =>
    rw [hfound] at h
    cases h
    exact ofSource_of_get hfound
  | ok m =>
    rw [hfound] at h
    dsimp only at h
    split_ifs at h
    cases h
    rfl

namespace Emission

/-- The code is written while a method is defined. -/
def defining (inner rest : Emission Unit) : Emission Unit := do
  let enclosing := (← get).stream
  modify fun e => { e with
    stream := .code
    code := if e.code.isEmpty then e.code else e.code ++ [""]
    inMethod := true }
  inner
  modify fun e => { e with stream := enclosing, inMethod := false }
  rest

/-- A relation between steps that holds over what emissions are made of, whatever their journals and
lines, where `k` groups may be open and lines may be written in groups with `D`. A strict relation holds
of stops for causes in the source only, and relies on variables with names; an exact one holds of the
same places and entries only. -/
structure Stepwise (options : Options) (strict exact : Prop) (D : Nat → Prop)
    (R : Nat → ∀ {α : Type}, Emission α → Emission α → Prop) : Prop where
  pure : ∀ {k : Nat} {α : Type} (a : α), R k (Pure.pure a) (Pure.pure a)
  bind : ∀ {k : Nat} {α β : Type} {m m' : Emission α} {f f' : α → Emission β}, R k m m' →
    (∀ a, R k (f a) (f' a)) → R k (m >>= f) (m' >>= f')
  look : ∀ {k : Nat} {β : Type} {f f' : Emitter → Emission β}, (∀ e journal lines,
    (strict → e.context.scope.Named) → R k (f e) (f' (e.reporting journal lines))) → R k (get >>= f) (get >>= f')
  fail : ∀ {k : Nat} {α : Type} {fault : Fault} {place place' : Option Location}, (exact → place = place') →
    (strict → fault.ofSource = true) → R k (fail fault place : Emission α) (fail fault place')
  failBare : ∀ {k : Nat} {α : Type} {fault : Fault} {place place' : Option Location}, (exact → place = place') →
    (strict → fault.ofSource = true) → R k (failBare fault place : Emission α) (failBare fault place')
  breakOff : ∀ {k : Nat} {α : Type} (b : Breakdown), ¬ strict → R k (breakOff b : Emission α) (breakOff b)
  note : ∀ {k : Nat} entries entries', (exact → entries = entries') →
    R k (modify (Emitter.note entries)) (modify (Emitter.note entries'))
  learn : ∀ {k : Nat} (f : Context → Context), (∀ context, (f context).pool = context.pool ∧
    (strict → context.scope.Named → (f context).scope.Named)) → R k (learn f) (learn f)
  emit : ∀ {k : Nat} line, D k → R k (emit options line) (emit options line)
  grouped : ∀ {k : Nat} {inner inner' : Emission Unit}, R (k + 1) inner inner' → R k (grouped inner) (grouped inner')
  counter : ∀ {k : Nat} {place place' : Option Location} {step step' : String → Emission Unit},
    (exact → place = place') → (∀ counter, R k (step counter) (step' counter)) →
    R k (withCounter place step) (withCounter place' step')
  definition : ∀ {k : Nat} {inner inner' rest rest' : Emission Unit}, R k inner inner' → R k rest rest' →
    R k (defining inner rest) (defining inner' rest')

namespace Stepwise

variable {options : Options} {strict exact : Prop} {D : Nat → Prop} {k : Nat}
  {R : Nat → ∀ {α : Type}, Emission α → Emission α → Prop} {α : Type} {place place' : Option Location}
  (hr : Stepwise options strict exact D R)
include hr

/-! ### Steps of statements -/

theorem andThen {m m' : Emission Unit} {next next' : Emission α} (hm : R k m m') (hnext : R k next next') :
    R k (do m; next) (do m'; next') :=
  hr.bind hm fun _ => hnext

theorem declare_related {b : Binding} (hb : strict → b.name.isSome = true) : R k (declare b) (declare b) :=
  hr.look fun _ _ _ he => hr.andThen (hr.note _ _ fun _ => rfl) (hr.learn _ fun _ =>
    ⟨rfl, fun hstrict _ => Scope.named_declare (hb hstrict) (he hstrict)⟩)

theorem forM_related {γ : Type} {f f' : γ → Emission Unit} (h : ∀ c, R k (f c) (f' c)) (cs : List γ) :
    R k (cs.forM f) (cs.forM f') := by
  induction cs with
  | nil => exact hr.pure ()
  | cons c cs ih => exact hr.andThen (h c) ih

theorem mapM_related {γ δ : Type} {S : γ → γ → Prop} {f f' : γ → Emission δ}
    (h : ∀ c c', S c c' → R k (f c) (f' c')) {cs cs' : List γ} (hcs : List.Forall₂ S cs cs') :
    R k (cs.mapM f) (cs'.mapM f') := by
  induction hcs with
  | nil => exact hr.pure []
  | @cons c c' cs cs' hfirst _ ih =>
    rw [List.mapM_cons, List.mapM_cons]
    exact hr.bind (h c c' hfirst) fun d => hr.bind ih fun ds => hr.pure (d :: ds)

theorem argumentType_related (callee : String) {argument argument' : List Token}
    (h : List.Forall₂ Token.Alike argument argument' ∧ (exact → argument = argument')) :
    R k (argumentType callee argument) (argumentType callee argument') := by
  obtain ⟨h, hexact⟩ := h
  cases h with
  | nil => exact hr.pure _
  | @cons t u rest rest' hsame hrest =>
    cases hrest with
    | cons _ _ => exact hr.pure _
    | nil =>
      refine hr.look fun e journal lines _ => ?_
      have hknown : knownType? e.context.scope u = knownType? e.context.scope t := by
        rw [knownType?, knownType?, hsame.kind, hsame.raw]
      simp only [Emitter.reporting_context, hknown]
      cases knownType? e.context.scope t with
      | some type => exact hr.pure type
      | none =>
        refine hr.andThen (hr.note _ _ fun h => ?_) (hr.pure _)
        rw [(List.cons.inj (hexact h)).1]

section

variable (hplace : exact → place = place')
include hplace

theorem orFail_related {x : Except Fault α} (h : ∀ fault, x = .error fault → fault.ofSource = true) :
    R k (orFail place x) (orFail place' x) := by
  cases x with
  | ok a => exact hr.pure a
  | error fault => exact hr.fail hplace fun _ => h fault rfl

theorem requireMethod_related (action : String) :
    R k (requireMethod action place) (requireMethod action place') := by
  refine hr.look fun e journal lines _ => ?_
  rw [e.reporting_inMethod]
  split_ifs
  · exact hr.pure ()
  · exact hr.fail hplace fun _ => rfl

theorem resolve_related (name : String) (dimensions : List String) :
    R k (resolve name dimensions place) (resolve name dimensions place') := by
  refine hr.look fun e journal lines _ => ?_
  rw [e.reporting_context]
  exact hr.orFail_related hplace fun _ => ofSource_of_resolve

theorem validate_related (name choice : String) {next next' : Mode → Emission α}
    (h : ∀ mode, R k (next mode) (next' mode)) :
    R k (do next (← orFail place ((← get).context.modes.validate name choice)))
      (do next' (← orFail place' ((← get).context.modes.validate name choice))) := by
  refine hr.look fun e journal lines _ => ?_
  rw [e.reporting_context]
  exact hr.bind (hr.orFail_related hplace fun _ => ofSource_of_validate) h

theorem parameterTypes_related (parameters : List Parameter) :
    R k (parameterTypes parameters place) (parameterTypes parameters place') := by
  refine hr.mapM_related (S := Eq) ?_ (List.forall₂_refl parameters)
  rintro p - rfl
  exact hr.resolve_related hplace _ _

theorem resultType_related (returnType : Option String) :
    R k (resultType returnType place) (resultType returnType place') := by
  cases returnType with
  | none => exact hr.pure _
  | some name =>
    simp only [resultType]
    split_ifs
    · exact hr.pure _
    · exact hr.bind (hr.resolve_related hplace name []) fun type => hr.pure _

/-! ### Statements -/

section

variable (hk : D k)
include hk

theorem declaration_related (typeName : String) (names : List String) (isMutable : Bool) :
    R k (declaration options typeName names isMutable place)
      (declaration options typeName names isMutable place') := by
  unfold declaration
  split_ifs
  · exact hr.fail hplace fun _ => rfl
  · refine hr.bind (hr.resolve_related hplace typeName []) fun type => ?_
    exact hr.andThen (hr.forM_related (fun name => hr.declare_related fun _ => rfl) names) (hr.emit _ hk)

theorem assignment_related (name : String) (h : Token.SameInk run run') :
    R k (assignment options name run place) (assignment options name run' place') := by
  refine hr.look fun e journal lines hnamed => ?_
  simp only [Emitter.reporting_context]
  cases e.context.scope.lookup (some name) with
  | none =>
    cases hsimilar : e.context.scope.similar name with
    | ok names => exact hr.fail hplace fun _ => rfl
    | error b =>
      refine hr.breakOff b fun hstrict => ?_
      cases hsimilar.symm.trans (Scope.similar_eq (hnamed hstrict) name)
  | some b =>
    simp only [render_eq h]
    split_ifs
    · exact hr.andThen (hr.requireMethod_related hplace _) (hr.emit _ hk)
    · exact hr.emit _ hk

theorem structureMember_related (name : String) (hs : s.Alike s') (hproper : strict → s.Proper) :
    R k (structureMember options name (.mk s place body)) (structureMember options name (.mk s' place' body')) := by
  cases hs with
  | same s _ =>
    cases s with
    | pass => exact hr.emit _ hk
    | declaration typeName names isMutable =>
      simp only [structureMember, Node.statement]
      split_ifs
      · exact hr.fail hplace fun _ => rfl
      · rcases names with _ | ⟨element, _ | ⟨first, more⟩⟩
        · exact hr.breakOff _ fun hstrict => hproper hstrict rfl
        · exact hr.fail hplace fun _ => rfl
        · exact hr.bind (hr.resolve_related hplace element _) fun type => hr.emit _ hk
    | _ => exact hr.fail hplace fun _ => rfl
  | _ => exact hr.fail hplace fun _ => rfl

theorem structureType_related (name : String) (hproper : strict → ∀ n ∈ body, n.statement.Proper)
    (h : List.Forall₂ (fun n n' : Node => n.statement.Alike n'.statement) body body') (hexact : exact → body = body') :
    R k (structureType options name body place) (structureType options name body' place') := by
  refine hr.andThen (hr.learn _ fun _ => ⟨rfl, fun _ => id⟩) ?_
  cases h with
  | nil => exact hr.fail hplace fun _ => rfl
  | @cons n n' _ _ hs hrest =>
    cases hrest with
    | nil =>
      obtain ⟨s, location, body⟩ := n
      obtain ⟨s', location', body'⟩ := n'
      refine hr.structureMember_related (fun h => ?_) hk name hs fun hstrict => hproper hstrict _ List.mem_cons_self
      exact (Node.mk.inj (List.cons.inj (hexact h)).1).2.1
    | cons _ _ => exact hr.fail hplace fun _ => rfl

theorem call_related (name : String) (h : Token.SameInk run run') (hexact : exact → run = run') :
    R k (call options name run place) (call options name run' place') := by
  refine hr.andThen (hr.requireMethod_related hplace _) ?_
  have halike : List.Forall₂ (fun a a' => List.Forall₂ Token.Alike a a' ∧ (exact → a = a'))
      (arguments run) (arguments run') := by
    by_cases hsame : exact
    · obtain rfl := hexact hsame
      exact List.forall₂_same.mpr fun a _ => ⟨List.forall₂_same.mpr fun _ _ => ⟨rfl, rfl⟩, fun _ => rfl⟩
    · exact (arguments_alike h).imp fun _ _ halike => ⟨halike, fun h => absurd h hsame⟩
  refine hr.bind (hr.mapM_related (fun _ _ h => hr.argumentType_related name h) halike) fun types => ?_
  rw [render_eq h]
  exact hr.andThen (hr.note _ _ fun _ => rfl) (hr.emit _ hk)

theorem returns_related (h : Token.SameInk run run') :
    R k (returns options run place) (returns options run' place') := by
  unfold returns
  rw [render_eq h]
  exact hr.andThen (hr.requireMethod_related hplace _) (hr.emit _ hk)

omit hplace in
theorem setMode_related (name : String) (choices : List String) :
    R k (setMode options name choices) (setMode options name choices) :=
  hr.look fun _ _ _ _ => hr.andThen (hr.note _ _ fun _ => rfl)
    (hr.andThen (hr.learn _ fun _ => ⟨rfl, fun _ => id⟩) (hr.emit _ hk))

theorem defaultMode_related (name choice : String) :
    R k (defaultMode options name choice place) (defaultMode options name choice place') := by
  refine hr.validate_related hplace name choice fun mode => ?_
  refine hr.andThen (hr.emit _ hk) (hr.andThen (hr.emit _ hk) (hr.andThen (hr.emit _ hk) ?_))
  cases mode.current with
  | none => exact hr.learn _ fun _ => ⟨rfl, fun _ => id⟩
  | some _ => exact hr.pure ()

theorem defineMode_related (name choice : String) :
    R k (defineMode options name choice place) (defineMode options name choice place') := by
  refine hr.validate_related hplace name choice fun mode => ?_
  have hselect := hr.andThen (hr.emit ("#define " ++ mode.symbol choice) hk)
    (show R k (select mode choice) (select mode choice) from hr.learn _ fun _ => ⟨rfl, fun _ => id⟩)
  cases mode.current with
  | none => exact hselect
  | some current => exact hr.andThen (hr.emit _ hk) hselect

/-! ### Blocks -/

section

variable (h : R (k + 1) inner inner')
include h

omit hplace in
theorem braced_related (opening : String) : R k (braced options opening inner) (braced options opening inner') :=
  hr.andThen (hr.emit _ hk) (hr.andThen (hr.grouped h) (hr.emit _ hk))

theorem methodBlock_related (action opening : String) :
    R k (methodBlock options action opening place inner) (methodBlock options action opening place' inner') :=
  hr.andThen (hr.requireMethod_related hplace _) (hr.braced_related hk h _)

theorem modeOption_related (mode : Mode) (choice : String) :
    R k (modeOption options mode choice place inner) (modeOption options mode choice place' inner') := by
  refine hr.validate_related hplace mode.name choice fun _ => ?_
  exact hr.andThen (hr.emit _ hk) (hr.andThen (hr.grouped h) (hr.emit _ hk))

theorem method_related (name : String) (parameters : List Parameter) (returnType : Option String) :
    R k (method options name parameters returnType place inner)
      (method options name parameters returnType place' inner') := by
  refine hr.bind (hr.parameterTypes_related hplace parameters) fun types => ?_
  refine hr.bind (hr.resultType_related hplace returnType) fun result => ?_
  refine hr.andThen (hr.emit _ hk) (hr.andThen (hr.learn _ fun _ => ⟨rfl, fun _ hscope => ?_⟩) ?_)
  · exact ⟨hscope.1, by simp [Scope.enterMethod]⟩
  refine hr.andThen (hr.forM_related (fun _ => hr.declare_related fun _ => rfl) _) ?_
  refine hr.definition (hr.braced_related hk h _) (hr.learn _ fun _ => ⟨rfl, fun _ hscope => ?_⟩)
  exact ⟨hscope.1, by simp [Scope.exitMethod]⟩

theorem forLoop_related {start stop start' stop' : List Token} (hstart : Token.SameInk start start')
    (hstop : Token.SameInk stop stop') (hproper : strict → (Statement.forLoop start stop).Proper) :
    R k (forLoop options start stop place inner) (forLoop options start' stop' place' inner') := by
  -- the start clause begins with the loop variable, so what the loop declares has a name
  have hnamed : strict → (Statement.iterator? start).isSome = true := by
    intro hstrict
    obtain ⟨⟨t, rest, rfl, hword⟩, -⟩ := hproper hstrict
    simp [Statement.iterator?, hword]
  rw [Statement.iterator?_eq hstart] at hnamed
  unfold forLoop
  rw [Statement.iterator?_eq hstart, render_eq hstart, render_eq hstop]
  refine hr.andThen (hr.requireMethod_related hplace _) (hr.look fun e journal lines _ => ?_)
  rw [e.reporting_context]
  cases e.context.scope.lookup (Statement.iterator? start') with
  | some b => exact hr.braced_related hk h _
  | none =>
    exact hr.andThen (hr.declare_related hnamed) (hr.andThen (hr.braced_related hk h _)
      (hr.learn _ fun _ => ⟨rfl, fun _ => Scope.named_forget _⟩))

theorem repeatLoop_related (hrun : Token.SameInk run run') :
    R k (repeatLoop options run place inner) (repeatLoop options run' place' inner') := by
  unfold repeatLoop
  rw [render_eq hrun]
  exact hr.andThen (hr.requireMethod_related hplace _) (hr.counter hplace fun _ => hr.braced_related hk h _)

end

variable {choices choices' : Mode → Emission Unit} (hs : s.Alike s')
  (hexact : exact → Node.mk s place body = .mk s' place' body')
  (hproper : strict → s.Proper ∧ (∀ name, s ≠ .option name) ∧ ∀ n ∈ body, n.statement.Proper)
  (hbody : ∀ name, s = .structType name →
    List.Forall₂ (fun n n' : Node => n.statement.Alike n'.statement) body body')
  (hinner : s.bodyReader = .statements → R (k + 1) inner inner')
  (hchoices : s.bodyReader = .options → ∀ mode, R k (choices mode) (choices' mode))

include hs hexact hproper hbody hinner hchoices

omit hplace in
theorem statement_related :
    R k (statement options s place body inner choices) (statement options s' place' body' inner' choices') := by
  have hplace : exact → place = place' := fun h => (Node.mk.inj (hexact h)).2.1
  cases hs with
  | assignment name h => exact hr.assignment_related hplace hk name h
  | call name h => exact hr.call_related hplace hk name h fun hx => (Statement.call.inj (Node.mk.inj (hexact hx)).1).2
  | returns h => exact hr.returns_related hplace hk h
  | ifThen h | elseIf h | whileLoop h =>
    simp only [statement, render_eq h]
    exact hr.methodBlock_related hplace hk (hinner rfl) _ _
  | forLoop hstart hstop =>
    exact hr.forLoop_related hplace hk (hinner rfl) hstart hstop fun hstrict => (hproper hstrict).1
  | repeatLoop h => exact hr.repeatLoop_related hplace hk (hinner rfl) h
  | same s hplain =>
    cases s with
    | comment text =>
      simp only [statement, comment]
      split_ifs
      · exact hr.emit _ hk
      · exact hr.pure ()
    | declaration typeName names isMutable => exact hr.declaration_related hplace hk typeName names isMutable
    | pass => exact hr.emit _ hk
    | setMode mode choices => exact hr.setMode_related hk mode choices
    | defaultMode mode choice => exact hr.defaultMode_related hplace hk mode choice
    | defineMode mode choice => exact hr.defineMode_related hplace hk mode choice
    | structType name =>
      exact hr.structureType_related hplace hk name (fun hstrict => (hproper hstrict).2.2) (hbody name rfl)
        fun hx => (Node.mk.inj (hexact hx)).2.2
    | method name parameters returnType => exact hr.method_related hplace hk (hinner rfl) name parameters returnType
    | otherwise => exact hr.methodBlock_related hplace hk (hinner rfl) _ _
    | choose name =>
      refine hr.look fun e journal lines _ => ?_
      rw [e.reporting_context]
      exact hr.bind (hr.orFail_related hplace fun _ => ofSource_of_get) (hchoices rfl)
    | option name => exact hr.failBare hplace fun hstrict => absurd rfl ((hproper hstrict).2.1 name)
    | _ => cases hplain

omit hplace in
theorem noted_related :
    R k (noted options s place body inner choices) (noted options s' place' body' inner' choices') := by
  have hstatement := hr.statement_related hk hs hexact hproper hbody hinner hchoices
  have hnote := hr.andThen (hr.note (k := k) [⟨.emission, .debug, "Generating " ++ (Node.mk s place body).tag⟩] _
    fun h => by rw [hexact h]) hstatement
  cases hs with
  | same s _ =>
    cases s with
    | option name => exact hstatement
    | _ => exact hnote
  | _ => exact hnote

end

end

/-! ### One emission -/

section

variable (hk : D k)
include hk

theorem modeOption_self (h : R (k + 1) inner inner) (mode : Mode) (choice : String) :
    R k (modeOption options mode choice place inner) (modeOption options mode choice place inner) :=
  hr.modeOption_related (fun _ => rfl) hk h mode choice

theorem noted_self {choices : Mode → Emission Unit} (place : Option Location)
    (hproper : strict → s.Proper ∧ (∀ name, s ≠ .option name) ∧ ∀ n ∈ body, n.statement.Proper)
    (hinner : s.bodyReader = .statements → R (k + 1) inner inner)
    (hchoices : s.bodyReader = .options → ∀ mode, R k (choices mode) (choices mode)) :
    R k (noted options s place body inner choices) (noted options s place body inner choices) :=
  hr.noted_related hk (.refl s) (fun _ => rfl) hproper
    (fun _ _ => List.forall₂_same.mpr fun n _ => .refl n.statement) hinner hchoices

end

end Stepwise

end Emission

end CirOutline
