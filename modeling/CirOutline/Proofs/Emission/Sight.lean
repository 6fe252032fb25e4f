import CirOutline.Proofs.Emission.Visiting

/-!
What the statements of a program make known. A declaration adds variables, a named type adds a type,
and a method or a loop may add variables for the time of its block. `visit_opens` says for every node
what its emission makes known: with a block, before and after it; without a block, at once.
-/

namespace CirOutline

open List TemporaryPool Statement

variable {After : Emitter → Emitter → Prop} {Before : Option Mode → Emitter → Prop} {how : Option Mode}
  {m : Emission Unit} {n : Node} {name : String} {pool : TemporaryPool}
  {step : (Option Mode → Emission Unit) → Emission Unit}

/-- What is known at a point of an emission: the types, the variables, and whether the point is in a
method. -/
structure Sight where
  types : TypeTable
  scope : Scope
  inMethod : Bool

def Emitter.sight (e : Emitter) : Sight := ⟨e.context.types, e.context.scope, e.inMethod⟩

/-- The variables that a statement declares by name: those of a declaration, and the parameters of a
method. -/
def Statement.bindings (types : TypeTable) : Statement → List Binding
  | declaration typeName names isMutable =>
    match types.resolve typeName [] with
    | .ok type => names.map fun name => ⟨some name, type, isMutable⟩
    | .error _ => []
  | method _ parameters _ => parameters.filterMap fun p =>
    (types.resolve p.typeName p.dimensions).toOption.map fun type => ⟨some p.name, type, true⟩
  | _ => []

def Statement.counter? : Statement → Option (Option String)
  | forLoop start _ => some (iterator? start)
  | _ => none

/-- A loop over a range whose variable is not declared declares it. -/
def Scope.lacks (scope : Scope) (s : Statement) : Bool :=
  match s.counter? with
  | some name => (scope.lookup name).isNone
  | none => false

namespace Sight

def after (s : Statement) (v : Sight) : Sight :=
  match s with
  | .structType name => { v with types := v.types.register name }
  | s => { v with scope := (s.bindings v.types).foldl Scope.declare v.scope }

def entering (s : Statement) (v : Sight) : Sight :=
  match s with
  | .method .. =>
    { v with
      scope := (s.bindings v.types).foldl Scope.declare v.scope.enterMethod
      inMethod := true }
  | .forLoop start _ =>
    if v.scope.lacks s then
      { v with scope := v.scope.declare ⟨iterator? start, CType.int, true⟩ }
    else v
  | _ => v

/-- What is known after the block of a statement, from what was known before the statement and at
the end of the block. -/
def leaving (s : Statement) (v last : Sight) : Sight :=
  match s with
  | .method .. => { last with scope := last.scope.exitMethod, inMethod := false }
  | .forLoop start _ =>
    if v.scope.lacks s then { last with scope := last.scope.forget (iterator? start) }
    else last
  | _ => last

theorem types_entering (s : Statement) (v : Sight) : (v.entering s).types = v.types := by
  cases s with
  | forLoop start stop =>
    simp only [Sight.entering]
    split_ifs <;> rfl
  | _ => rfl

theorem inMethod_entering (s : Statement) (v : Sight) : (v.entering s).inMethod = (s.isMethod || v.inMethod) := by
  cases s with
  | forLoop start stop =>
    simp only [Sight.entering]
    split_ifs <;> rfl
  | _ => rfl

theorem types_leaving (s : Statement) (v w : Sight) : (v.leaving s w).types = w.types := by
  cases s with
  | forLoop start stop =>
    simp only [Sight.leaving]
    split_ifs <;> rfl
  | _ => rfl

end Sight

def Statement.isRepeat : Statement → Bool
  | repeatLoop _ => true
  | _ => false

def Statement.isField : Statement → Bool
  | pass | declaration .. => true
  | _ => false

theorem Statement.opensBlock_of_isField {s : Statement} (h : s.isField = true) : s.opensBlock = false := by
  cases s with
  | pass | declaration => rfl
  | _ => cases h

/-! ### Who is to blame for a stop -/

/-- A stop for something that a statement asks for and that is not there: a variable, a type or a
counter. -/
def Stop.isLack : Stop → Bool
  | .diagnosed ⟨.undeclaredName .., _, _⟩ | .diagnosed ⟨.unknownType .., _, _⟩
  | .diagnosed ⟨.poolExhausted _, _, _⟩ => true
  | _ => false

/-- The emission of a node looks up the C type of a name, for the place that a failure names. -/
inductive Node.Asks : Node → String → Option Location → Prop
  | declaration {typeName names isMutable place body} (harray : typeName ≠ arrayTypeName) :
      Asks (.mk (.declaration typeName names isMutable) place body) typeName place
  | parameter {name parameters result place body p} (hp : p ∈ parameters) :
      Asks (.mk (.method name parameters result) place body) p.typeName place
  | result {name parameters result place body} :
      Asks (.mk (.method name parameters (some result)) place body) result place
  | element {name element dimensions isMutable place location inner} :
      Asks (.mk (.structType name) place
        [.mk (.declaration arrayTypeName (element :: dimensions) isMutable) location inner]) element location

/-- What a stop for something that is not there says about the node that is to blame. -/
structure Node.Blamed (n : Node) (c : Context) (stop : Stop) : Prop where
  undeclared : ∀ name similar place line, stop = .diagnosed ⟨.undeclaredName name similar, place, line⟩ →
    place = n.location ∧ (∃ expression, n.statement = .assignment name expression) ∧
      c.scope.lookup (some name) = none
  unknown : ∀ name known place line, stop = .diagnosed ⟨.unknownType name known, place, line⟩ →
    n.Asks name place ∧ c.types.lookup name = none
  /-- A loop with a count, with all counters in use. -/
  exhausted : ∀ capacity place line, stop = .diagnosed ⟨.poolExhausted capacity, place, line⟩ →
    place = n.location ∧ n.statement.isRepeat = true ∧ capacity = c.pool.capacity ∧
      c.pool.acquire? = none

theorem Node.blamed_of_other (n : Node) (c : Context) (stop : Stop) (h : stop.isLack = false) :
    n.Blamed c stop := by
  refine ⟨?_, ?_, ?_⟩
  · rintro name similar place line rfl
    cases h
  · rintro name known place line rfl
    cases h
  · rintro capacity place line rfl
    cases h

theorem Node.Asks.blamed {place : Option Location} (h : n.Asks name place) {c : Context}
    (hunknown : c.types.lookup name = none) (known : List String) (line : Option String) :
    n.Blamed c (.diagnosed ⟨.unknownType name known, place, line⟩) := by
  refine ⟨?_, ?_, ?_⟩
  · rintro _ _ _ _ ⟨⟩
  · rintro _ _ _ _ ⟨⟩
    exact ⟨h, hunknown⟩
  · rintro _ _ _ ⟨⟩

theorem TypeTable.lookup_register (table : TypeTable) (name other : String) :
    (table.register name).lookup other = if other = name then some name else table.lookup other := by
  have hcons : ∀ (key spelling : String) (rest : TypeTable), List.lookup other ((key, spelling) :: rest) =
      if other = key then some spelling else rest.lookup other := by
    intro key spelling rest
    rw [lookup_cons]
    by_cases h : other = key
    · rw [if_pos h, beq_iff_eq.mpr h]
    · rw [if_neg h, beq_eq_false_iff_ne.mpr h]
  induction table with
  | nil => exact hcons name name []
  | cons entry table ih =>
    obtain ⟨key, spelling⟩ := entry
    by_cases hkey : key = name
    · subst hkey
      rw [TypeTable.register, if_pos (beq_self_eq_true key), hcons, hcons]
      split_ifs <;> rfl
    · rw [TypeTable.register, if_neg (by simpa using hkey), hcons, hcons, ih]
      by_cases h : other = key
      · subst h
        rw [if_pos rfl, if_neg hkey, if_pos rfl]
      · rw [if_neg h, if_neg h]

/-- What is known stays, and so do the counters in use and the list that is being written. -/
structure Emitter.Still (e e' : Emitter) : Prop where
  sight : e'.sight = e.sight
  pool : e'.context.pool = e.context.pool
  stream : e'.stream = e.stream

namespace Emitter.Still

variable {e e' e'' : Emitter}

theorem refl (e : Emitter) : e.Still e := ⟨rfl, rfl, rfl⟩

section

variable (h : e.Still e')
include h

theorem trans (h' : e'.Still e'') : e.Still e'' :=
  ⟨h'.sight.trans h.sight, h'.pool.trans h.pool, h'.stream.trans h.stream⟩

theorem sameUse : SameUse e.context.pool e'.context.pool :=
  h.pool ▸ .refl _

theorem types : e'.context.types = e.context.types := congrArg Sight.types h.sight

theorem scope : e'.context.scope = e.context.scope := congrArg Sight.scope h.sight

theorem inMethod : e'.inMethod = e.inMethod := congrArg Sight.inMethod h.sight

end

end Emitter.Still

theorem Emitter.still_write (e : Emitter) (line : String) : e.Still (e.write line) := by
  unfold Emitter.write
  split <;> exact ⟨rfl, rfl, rfl⟩

theorem Emitter.written_write (e : Emitter) (line : String) :
    (e.write line).written e.stream = e.written e.stream ++ [line] := by
  unfold Emitter.write
  split
  · next hstream => rw [hstream]; rfl
  · next hstream => rw [hstream]; rfl

/-- The block of a step is entered after an opening line. -/
structure Emitter.Opened (options : Options) (opening : String) (e inside : Emitter) : Prop where
  still : e.Still inside
  written : inside.written e.stream =
    e.written e.stream ++ [shift (options.indentWidth * e.groups) opening]

theorem TemporaryPool.isLack_of_release {fault : Fault} (h : pool.release name = .error (.refused fault)) :
    (Stop.diagnosed ⟨fault, none, none⟩).isLack = false := by
  have hindex : ∀ fault, pool.indexOf name = .error (.refused fault) → fault = .foreignTemporary name := by
    intro fault hfault
    unfold indexOf at hfault
    dsimp only at hfault
    split_ifs at hfault with hdigits hlong
    · cases hfault
      rfl
    · cases hfault
    · split at hfault
      · cases hfault
      · split_ifs at hfault
        cases hfault
        rfl
  unfold release at h
  split at h
  · next problem hproblem =>
    cases h
    rw [hindex fault hproblem]
    rfl
  · split_ifs at h
    cases h
    rfl

namespace Emission

/-! ### Steps that make nothing known -/

theorem emit_writes (options : Options) (line : String) (e : Emitter) : Ends (emit options line) e
      (fun _ e' => e' = e.write (shift (options.indentWidth * e.groups) line))
      fun stop _ => ∃ b, stop = .broken b := by
  apply Ends.bind_get
  unfold Emitter.emit shift
  split_ifs
  · exact Ends.of_ok rfl rfl
  · rw [Emitter.margin, Allocation.spaces, Allocation.cells]
    split_ifs
    · exact Ends.throw ⟨_, rfl⟩
    · exact Ends.throw ⟨_, rfl⟩
    · exact Ends.of_ok rfl rfl

/-- Where the step gives a value, what is known stays; its stops are its own. -/
def Stays {α : Type} (Own : Stop → Prop) (m : Emission α) (e : Emitter) : Prop :=
  Ends m e (fun _ e' => e.Still e') fun stop _ => Own stop

section

variable {α β : Type} {options : Options} {Own : Stop → Prop} {e : Emitter}
  (hown : ∀ stop, stop.isLack = false → Own stop)

theorem Stays.bind {m : Emission α} {f : α → Emission β} (hm : Stays Own m e)
    (hf : ∀ a e', e.Still e' → Stays Own (f a) e') : Stays Own (m >>= f) e :=
  Ends.bind hm fun a e' hstill => (hf a e' hstill).weaken fun _ _ hlater => hstill.trans hlater

theorem Stays.pure (a : α) : Stays Own (Pure.pure a) e := Ends.pure (.refl e)

theorem Stays.mapM {f : α → Emission β} (h : ∀ a e, Stays Own (f a) e) (items : List α) :
    Stays Own (items.mapM f) e := by
  induction items generalizing e with
  | nil => exact Stays.pure []
  | cons a items ih =>
    rw [mapM_cons]
    exact Stays.bind (h a e) fun _ _ _ => Stays.bind ih fun _ _ _ => Stays.pure _

include hown

theorem emit_ends (line : String) :
    Ends (emit options line) e (fun _ e' => e' = e.write (shift (options.indentWidth * e.groups) line))
      fun stop _ => Own stop := by
  refine (emit_writes options line e).mono (fun _ _ h => h) fun stop _ hstop => hown stop ?_
  obtain ⟨b, rfl⟩ := hstop
  rfl

theorem emit_stays (line : String) : Stays Own (emit options line) e := by
  refine (emit_ends hown line).weaken fun _ e' he' => ?_
  rw [he']
  exact e.still_write _

theorem requireMethod_ends (action : String) (place : Option Location) :
    Ends (requireMethod action place) e (fun _ e' => e' = e ∧ e.inMethod = true)
      fun stop _ => Own stop := by
  apply Ends.bind_get
  split_ifs with hinside
  · exact Ends.pure ⟨rfl, hinside⟩
  · exact Ends.of_error rfl (hown _ rfl)

theorem requireMethod_stays (action : String) (place : Option Location) :
    Stays Own (requireMethod action place) e :=
  (requireMethod_ends hown action place).weaken fun _ _ h => h.1 ▸ .refl e

omit hown in
theorem orFail_ends (place : Option Location) {found : Except Fault α}
    (hfault : ∀ fault line, found = .error fault → Own (.diagnosed ⟨fault, place, line⟩)) :
    Ends (orFail place found) e (fun a e' => e' = e ∧ found = .ok a) fun stop _ => Own stop := by
  cases found with
  | ok a => exact Ends.pure ⟨rfl, rfl⟩
  | error fault => exact Ends.of_error rfl (hfault fault _ rfl)

omit hown in
theorem resolve_ends (name : String) (dimensions : List String) (place : Option Location)
    (hunknown : ∀ line, e.context.types.lookup name = none →
      Own (.diagnosed ⟨.unknownType name e.context.types.names, place, line⟩)) :
    Ends (resolve name dimensions place) e
      (fun type e' => e' = e ∧ e.context.types.resolve name dimensions = .ok type)
      fun stop _ => Own stop := by
  refine Ends.bind_get (orFail_ends place fun fault line hfault => ?_)
  unfold TypeTable.resolve at hfault
  split at hfault
  · cases hfault
  · next hnone =>
    cases hfault
    exact hunknown line hnone

theorem validate_ends (place : Option Location) (modes : ModeRegistry) (name choice : String) :
    Ends (orFail place (modes.validate name choice)) e (fun _ e' => e' = e) fun stop _ => Own stop := by
  refine (orFail_ends place fun fault line hfault => hown _ ?_).weaken fun _ _ h => h.1
  unfold ModeRegistry.validate ModeRegistry.get at hfault
  cases hfound : modes.find? name with
  | none =>
    rw [hfound] at hfault
    cases hfault
    rfl
  | some m =>
    rw [hfound] at hfault
    dsimp only at hfault
    split_ifs at hfault
    cases hfault
    rfl

theorem comment_stays (text : String) : Stays Own (comment options text) e := by
  unfold comment
  split_ifs
  · exact emit_stays hown _
  · exact Stays.pure ()

theorem call_stays (name : String) (arguments : List Token) (place : Option Location) :
    Stays Own (call options name arguments place) e := by
  have hargument : ∀ (argument : List Token) (e' : Emitter), Stays Own (argumentType name argument) e' := by
    intro argument e'
    unfold argumentType
    split
    · apply Ends.bind_get
      split
      · exact Stays.pure _
      · exact Ends.bind_modify (Ends.pure ⟨rfl, rfl, rfl⟩)
    · exact Stays.pure _
  refine Stays.bind (requireMethod_stays hown _ _) fun _ e1 _ => ?_
  refine Stays.bind (Stays.mapM hargument _) fun _ e2 _ => ?_
  exact Stays.bind (Ends.modify ⟨rfl, rfl, rfl⟩) fun _ e3 _ => emit_stays hown _

theorem returns_stays (expression : List Token) (place : Option Location) :
    Stays Own (returns options expression place) e :=
  Stays.bind (requireMethod_stays hown _ _) fun _ _ _ => emit_stays hown _

theorem setMode_stays (name : String) (choices : List String) : Stays Own (setMode options name choices) e := by
  refine Ends.bind_get (Stays.bind (Ends.modify ⟨rfl, rfl, rfl⟩) fun _ e1 _ => ?_)
  exact Stays.bind (Ends.modify ⟨rfl, rfl, rfl⟩) fun _ e2 _ => emit_stays hown _

theorem defaultMode_stays (name choice : String) (place : Option Location) :
    Stays Own (defaultMode options name choice place) e := by
  refine Ends.bind_get (Ends.bind (validate_ends hown place _ name choice) fun mode e1 h1 => ?_)
  subst h1
  refine Stays.bind (emit_stays hown _) fun _ e2 _ => ?_
  refine Stays.bind (emit_stays hown _) fun _ e3 _ => ?_
  refine Stays.bind (emit_stays hown _) fun _ e4 _ => ?_
  split
  · exact Ends.modify ⟨rfl, rfl, rfl⟩
  · exact Stays.pure ()

theorem defineMode_stays (name choice : String) (place : Option Location) :
    Stays Own (defineMode options name choice place) e := by
  refine Ends.bind_get (Ends.bind (validate_ends hown place _ name choice) fun mode e1 h1 => ?_)
  subst h1
  have hselect : ∀ e' : Emitter, Stays Own
      (do emit options ("#define " ++ mode.symbol choice); select mode choice) e' := fun e' =>
    Stays.bind (emit_stays hown _) fun _ _ _ => Ends.modify ⟨rfl, rfl, rfl⟩
  split
  · exact Stays.bind (emit_stays hown _) fun _ e2 _ => hselect e2
  · exact hselect e1

/-! ### Declarations -/

omit hown in
theorem declareAll_ends (binding : α → Binding) (items : List α) :
    Ends (items.forM fun a => declare (binding a)) e (fun _ e' => e'.sight =
          { e.sight with scope := (items.map binding).foldl Scope.declare e.context.scope } ∧
        e'.context.pool = e.context.pool)
      fun stop _ => Own stop := by
  induction items generalizing e with
  | nil => exact Ends.pure ⟨rfl, rfl⟩
  | cons a items ih =>
    change Ends (declare (binding a) >>= fun _ => items.forM fun a => declare (binding a)) e _ _
    exact Ends.bind_ok (show declare (binding a) e = .ok () { e with
      journal := e.journal ++ e.context.scope.declareEntries (binding a)
      context := { e.context with scope := e.context.scope.declare (binding a) } } from rfl) ih

theorem declaration_ends (typeName : String) (names : List String) (isMutable : Bool) (place : Option Location)
    (hunknown : typeName ≠ arrayTypeName → ∀ line, e.context.types.lookup typeName = none →
      Own (.diagnosed ⟨.unknownType typeName e.context.types.names, place, line⟩)) :
    Ends (declaration options typeName names isMutable place) e
      (fun _ e' => e'.sight = e.sight.after (.declaration typeName names isMutable))
      fun stop _ => Own stop := by
  unfold declaration
  split_ifs with harray
  · exact Ends.of_error rfl (hown _ rfl)
  · have hother : typeName ≠ arrayTypeName := fun h => harray (beq_iff_eq.mpr h)
    refine Ends.bind (resolve_ends typeName [] place (hunknown hother)) fun type e1 h1 => ?_
    obtain ⟨rfl, htype⟩ := h1
    refine Ends.bind (declareAll_ends (fun name => ⟨some name, type, isMutable⟩) names) fun _ e2 h2 => ?_
    refine (emit_stays hown _).weaken fun _ e3 h3 => ?_
    rw [h3.sight, h2.1]
    simp [Sight.after, bindings, Emitter.sight, htype]

theorem structureType_ends (name : String) (body : List Node) (place : Option Location)
    (hunknown : ∀ element dimensions isMutable location inner, body =
      [.mk (.declaration arrayTypeName (element :: dimensions) isMutable) location inner] →
      e.context.types.lookup element = none → ∀ known line,
        Own (.diagnosed ⟨.unknownType element known, location, line⟩)) :
    Ends (structureType options name body place) e
      (fun _ e' => e'.sight = e.sight.after (.structType name) ∧ ∃ member, body = [member] ∧
        member.statement.isField = true)
      fun stop _ => Own stop := by
  refine Ends.bind_modify ?_
  split
  case h_2 => exact Ends.of_error rfl (hown _ rfl)
  case h_1 member =>
      obtain ⟨s, location, inner⟩ := member
      unfold structureMember
      cases s with
      | pass =>
        exact (emit_stays hown _).weaken fun _ e' h => ⟨h.sight, _, rfl, rfl⟩
      | declaration typeName names isMutable =>
        dsimp only [Node.statement]
        split_ifs with harray
        · exact Ends.of_error rfl (hown _ rfl)
        · obtain rfl : typeName = arrayTypeName := by simpa using harray
          match names with
          | [] => exact Ends.of_error rfl (hown _ rfl)
          | [element] => exact Ends.of_error rfl (hown _ rfl)
          | element :: dimension :: dimensions =>
            refine Ends.bind (resolve_ends element _ location fun line hnone => ?_) fun type e1 h1 => ?_
            · refine hunknown element _ isMutable location inner rfl ?_ _ line
              -- the name of the type itself is known by then
              have hlookup := TypeTable.lookup_register e.context.types name element
              rw [show (e.context.types.register name).lookup element = none from hnone] at hlookup
              split_ifs at hlookup
              exact hlookup.symm
            · obtain ⟨rfl, -⟩ := h1
              exact (emit_stays hown _).weaken fun _ e' h => ⟨h.sight, _, rfl, rfl⟩
      | _ => exact Ends.of_error rfl (hown _ rfl)

/-! ### Statements with a block -/

theorem grouped_opens (how : Option Mode) : Opens (fun inner => grouped (inner how)) e (fun _ => False)
      (fun how' inside => how' = how ∧ inside = { e with groups := e.groups + 1 })
      (fun e2 e' => e'.sight = e2.sight) Own := by
  have hblock : Opens (fun inner => inner how) { e with groups := e.groups + 1 } (fun _ => False)
      (fun how' inside => how' = how ∧ inside = { e with groups := e.groups + 1 })
      (fun e2 e' => e' = e2) Own := Opens.block how ⟨rfl, rfl⟩ fun _ => rfl
  have hend : ∀ e2 e', e' = e2 → Ends endGroup e' (fun _ e'' => e''.sight = e2.sight)
      fun stop _ => Own stop := by
    rintro e2 e' rfl
    apply Ends.bind_get
    split_ifs
    · exact Ends.of_error rfl (hown _ rfl)
    · exact Ends.of_ok rfl rfl
  refine Opens.first (show Ends startGroup e (fun _ e' => e' = { e with groups := e.groups + 1 })
    (fun stop _ => Own stop) from Ends.modify rfl) ?_ fun _ e1 h1 => h1 ▸ hblock.andThen hend
  rintro _ e' rfl
  exact .refl _

theorem block_opens (opening closing : String) (how : Option Mode) :
    Opens (fun inner => do emit options opening; grouped (inner how); emit options closing) e
      (fun _ => False) (fun how' inside => how' = how ∧ e.Opened options opening inside)
      (fun e2 e' => e'.sight = e2.sight) Own := by
  refine Opens.first (emit_ends hown opening) (fun _ e1 h1 => h1 ▸ (e.still_write _).sameUse)
    fun _ e1 h1 => ?_
  refine Opens.mono (Opens.andThen (grouped_opens hown how) fun e2 e' h =>
    (emit_stays hown closing).weaken fun _ e'' hstill =>
      show e''.sight = e2.sight from hstill.sight.trans h) (fun _ h => h) ?_ fun _ _ h => h
  rintro how' inside ⟨rfl, rfl⟩
  subst h1
  exact ⟨rfl, ⟨(e.still_write _).sight, (e.still_write _).pool, (e.still_write _).stream⟩, e.written_write _⟩

theorem braced_opens (opening : String) (how : Option Mode) :
    Opens (fun inner => braced options opening (inner how)) e (fun _ => False)
      (fun how' inside => how' = how ∧ e.Opened options (opening ++ " \x7b") inside)
      (fun e2 e' => e'.sight = e2.sight) Own :=
  block_opens hown _ _ how

theorem required_opens (action : String) (place : Option Location)
    (h : e.inMethod = true → Opens step e (fun _ => False) Before After Own) :
    Opens (fun inner => requireMethod action place >>= fun _ => step inner) e (fun _ => False) Before
      After Own := by
  refine Opens.first (requireMethod_ends hown action place) (fun _ e1 h1 => h1.1 ▸ .refl _)
    fun _ e1 h1 => ?_
  obtain ⟨rfl, hinside⟩ := h1
  exact h hinside

theorem methodBlock_opens (action opening : String) (place : Option Location) (how : Option Mode) :
    Opens (fun inner => methodBlock options action opening place (inner how)) e (fun _ => False)
      (fun how' inside => how' = how ∧ e.Still inside) (fun e2 e' => e'.sight = e2.sight) Own :=
  required_opens hown action place fun _ => (braced_opens hown opening how).mono (fun _ h => h)
    (fun _ _ h => ⟨h.1, h.2.still⟩) fun _ _ h => h

omit hown in
theorem looked_opens {step : Emitter → (Option Mode → Emission Unit) → Emission Unit}
    {Leaf : Emitter → Prop} (h : Opens (step e) e Leaf Before After Own) :
    Opens (fun inner => get >>= fun found => step found inner) e Leaf Before After Own := by
  refine Opens.first (show Ends get e (fun found e' => found = e ∧ e' = e) (fun stop _ => Own stop) from
    Ends.of_ok rfl ⟨rfl, rfl⟩) (fun _ e1 h1 => h1.2 ▸ .refl _) fun found e1 h1 => ?_
  obtain ⟨rfl, rfl⟩ := h1
  exact h

theorem modeOption_opens (mode : Mode) (choice : String) (place : Option Location) (how : Option Mode) :
    Opens (fun inner => modeOption options mode choice place (inner how)) e (fun _ => False)
      (fun how' inside => how' = how ∧ e.Still inside) (fun e2 e' => e'.sight = e2.sight) Own := by
  refine looked_opens (Opens.first (validate_ends hown place _ mode.name choice)
    (fun _ e1 h1 => h1 ▸ .refl _) fun _ e1 h1 => ?_)
  subst h1
  exact (block_opens hown _ _ how).mono (fun _ h => h) (fun _ _ h => ⟨h.1, h.2.still⟩) fun _ _ h => h

omit hown in
theorem declare_ends (b : Binding) :
    Ends (declare b) e (fun _ e' => e'.sight = { e.sight with scope := e.context.scope.declare b } ∧
      e'.context.pool = e.context.pool ∧ e'.groups = e.groups ∧ e'.stream = e.stream ∧
      e'.written = e.written) fun stop _ => Own stop :=
  Ends.bind_get (Ends.bind_modify (Ends.modify ⟨rfl, rfl, rfl, rfl, by funext stream; cases stream <;> rfl⟩))

def loopOpening (start stop : List Token) (declares : Bool) : String :=
  (if declares then "for(int " else "for(") ++ Expression.render start ++ "; " ++
    Scope.nameText (iterator? start) ++ " <= " ++ Expression.render stop ++ "; " ++
    Scope.nameText (iterator? start) ++ "++) \x7b"

theorem forLoop_opens (start stop : List Token) (place : Option Location) (how : Option Mode) :
    Opens (fun inner => forLoop options start stop place (inner how)) e (fun _ => False)
      (fun how' inside => how' = how ∧ inside.sight = e.sight.entering (.forLoop start stop) ∧
        inside.context.pool = e.context.pool ∧ inside.stream = e.stream ∧ e.inMethod = true ∧
        inside.written e.stream = e.written e.stream ++ [shift (options.indentWidth * e.groups)
          (loopOpening start stop (e.context.scope.lacks (.forLoop start stop)))])
      (fun e2 e' => e'.sight = e.sight.leaving (.forLoop start stop) e2.sight) Own := by
  refine required_opens hown _ place fun hinside => looked_opens ?_
  have hlacks : ∀ found, e.context.scope.lookup (iterator? start) = found →
      e.context.scope.lacks (.forLoop start stop) = found.isNone := by
    rintro found rfl
    rfl
  cases hfound : e.context.scope.lookup (iterator? start) with
  | some b =>
    refine (braced_opens hown _ how).mono (fun _ h => h) ?_ ?_
    · rintro how' inside ⟨rfl, hopened⟩
      refine ⟨rfl, ?_, hopened.still.pool, hopened.still.stream, hinside, ?_⟩
      · rw [hopened.still.sight]
        simp [Sight.entering, Emitter.sight, hlacks _ hfound]
      · rw [hopened.written, hlacks _ hfound]
        simp [loopOpening, String.append_assoc]
    · intro e2 e' h
      rw [h]
      simp [Sight.leaving, Emitter.sight, hlacks _ hfound]
  | none =>
    refine Opens.first (declare_ends _) (fun _ e1 h1 => h1.2.1 ▸ .refl _) fun _ e1 h1 => ?_
    obtain ⟨hsight1, hpool1, hgroups1, hstream1, hwritten1⟩ := h1
    refine Opens.mono (Opens.andThen (braced_opens hown _ how) fun e2 e' h =>
      show Ends _ e' (fun _ e'' => e''.sight = e.sight.leaving (.forLoop start stop) e2.sight)
        (fun stop _ => Own stop) from Ends.modify ?_) (fun _ h => h) ?_ fun _ _ h => h
    · have hscope := congrArg Sight.scope h
      rw [← h]
      simp [Sight.leaving, Emitter.sight, hlacks _ hfound]
    · rintro how' inside ⟨rfl, hopened⟩
      refine ⟨rfl, ?_, hopened.still.pool.trans hpool1, hopened.still.stream.trans hstream1, hinside, ?_⟩
      · rw [hopened.still.sight, hsight1]
        simp [Sight.entering, Emitter.sight, hlacks _ hfound]
      · have hwritten := hopened.written
        rw [hstream1, hwritten1, hgroups1] at hwritten
        rw [hwritten, hlacks _ hfound]
        simp [loopOpening, String.append_assoc]

theorem giveBack_ends {Q : Emitter → Prop} (counter : String)
    (hm : Ends m e (fun _ e' => Q e') fun stop _ => Own stop)
    (hQ : ∀ e' e'', Q e' → e''.sight = e'.sight → Q e'') :
    Ends (fun e => giveBack counter (m e)) e (fun _ e' => Q e') fun stop _ => Own stop := by
  have hrelease : ∀ e' : Emitter, Ends (release counter) e' (fun _ e'' => e''.sight = e'.sight)
      fun stop _ => Own stop := by
    intro e'
    apply Ends.bind_get
    cases hback : e'.context.pool.release counter with
    | ok after => exact Ends.modify rfl
    | error problem =>
      cases problem with
      | broken b => exact Ends.of_error rfl (hown _ rfl)
      | refused fault => exact Ends.throw (hown _ (isLack_of_release hback))
  cases hrun : m e with
  | ok _ e2 =>
    have hvalue := (hrelease e2).weaken fun _ e'' hsight => hQ e2 e'' (hm.ok hrun) hsight
    simp only [Ends, giveBack, handOver, hrun] at hvalue ⊢
    exact hvalue
  | error stop e2 =>
    have hstop := hm.error hrun
    have hother := hrelease e2
    simp only [Ends, giveBack, handOver, hrun] at hother ⊢
    cases hback : release counter e2 with
    | ok _ e3 => exact hstop
    | error other e3 =>
      rw [hback] at hother
      exact hother

theorem withCounter_opens {step : String → (Option Mode → Emission Unit) → Emission Unit}
    {Before : String → Emitter → Option Mode → Emitter → Prop}
    (hcapacity : e.context.pool.capacity ≤ capacityBound) (place : Option Location)
    (hexhausted : e.context.pool.acquire? = none →
      Own (.diagnosed ⟨.poolExhausted e.context.pool.capacity, place, none⟩))
    (h : ∀ counter e', Opens (step counter) e' (fun _ => False) (Before counter e')
      (fun e2 e'' => e''.sight = e2.sight) Own) :
    Opens (fun inner => withCounter place fun counter => step counter inner) e (fun _ => False)
      (fun how inside => ∃ counter pool, e.context.pool.acquire? = some (counter, pool) ∧
        Before counter (e.withPool pool) how inside)
      (fun e2 e' => e'.sight = e2.sight) Own := by
  cases htaken : e.context.pool.acquire? with
  | none =>
    exact .inl ⟨failBare (.poolExhausted e.context.pool.capacity) place,
      fun inner => withCounter_none htaken place _, Ends.throw (hexhausted htaken)⟩
  | some taken =>
    obtain ⟨counter, pool⟩ := taken
    have hstep := fun inner => withCounter_eq htaken place fun counter => step counter inner
    rcases h counter (e.withPool pool) with ⟨m, hconst, hends⟩ |
      ⟨how', inside, after, recover, hover, hbefore, hends, hstops⟩
    · exact .inl ⟨fun _ => giveBack counter (m (e.withPool pool)),
        fun inner => (hstep inner).trans (congrArg (giveBack counter) (hconst inner)),
        giveBack_ends hown counter hends fun _ _ h _ => h⟩
    · refine .inr ⟨how', inside, fun e2 => giveBack counter (after e2),
        fun stop e2 => giveBack counter (recover stop e2), fun inner => ?_,
        ⟨counter, pool, rfl, hbefore⟩, fun e2 => ?_, fun stop e2 hsame => ?_⟩
      · refine (hstep inner).trans ((congrArg (giveBack counter) (hover inner)).trans ?_)
        cases inner how' inside <;> rfl
      · exact giveBack_ends hown counter (hends e2) fun _ _ h hsight => hsight.trans h
      · obtain ⟨e3, he3, hsame3⟩ := hstops stop e2 hsame
        obtain ⟨later, hback, huse⟩ := release_taken hcapacity htaken hsame3
        refine ⟨e3.withPool later, ?_, huse⟩
        simp only [giveBack, handOver, he3, hback]
        rfl

def repeatOpening (counter : String) (count : List Token) : String :=
  "for(int " ++ counter ++ " = 0; " ++ counter ++ " < " ++ Expression.render count ++ "; " ++
    counter ++ "++) \x7b"

theorem repeatLoop_opens (hcapacity : e.context.pool.capacity ≤ capacityBound)
    (count : List Token) (place : Option Location) (how : Option Mode)
    (hexhausted : e.context.pool.acquire? = none →
      Own (.diagnosed ⟨.poolExhausted e.context.pool.capacity, place, none⟩)) :
    Opens (fun inner => repeatLoop options count place (inner how)) e (fun _ => False)
      (fun how' inside => how' = how ∧ inside.sight = e.sight ∧ inside.stream = e.stream ∧ ∃ counter,
        e.context.pool.acquire? = some (counter, inside.context.pool) ∧
        inside.written e.stream = e.written e.stream ++
          [shift (options.indentWidth * e.groups) (repeatOpening counter count)])
      (fun e2 e' => e'.sight = e2.sight) Own := by
  refine required_opens hown _ place fun _ => Opens.mono (withCounter_opens hown hcapacity place
    hexhausted fun counter e' => braced_opens hown _ how) (fun _ h => h) ?_ fun _ _ h => h
  rintro how' inside ⟨counter, pool, htaken, rfl, hopened⟩
  refine ⟨rfl, hopened.still.sight, hopened.still.stream, counter, by rw [htaken, hopened.still.pool]; rfl, ?_⟩
  have hline : repeatOpening counter count = "for(int " ++ counter ++ " = 0; " ++ counter ++ " < " ++
      Expression.render count ++ "; " ++ counter ++ "++)" ++ " \x7b" := by
    simp [repeatOpening, String.append_assoc]
  rw [hline]
  exact hopened.written

/-! ### Methods -/

omit hown in
theorem parameterTypes_ends (parameters : List Parameter) (place : Option Location)
    (hunknown : ∀ p ∈ parameters, ∀ line, e.context.types.lookup p.typeName = none →
      Own (.diagnosed ⟨.unknownType p.typeName e.context.types.names, place, line⟩)) :
    Ends (parameterTypes parameters place) e (fun types e' => e' = e ∧
      (parameters.zip types).map (fun x => (⟨some x.1.name, x.2, true⟩ : Binding)) =
        (Statement.method "" parameters none).bindings e.context.types)
      fun stop _ => Own stop := by
  unfold parameterTypes
  induction parameters with
  | nil => exact Ends.pure ⟨rfl, rfl⟩
  | cons p parameters ih =>
    rw [forall_mem_cons] at hunknown
    rw [mapM_cons]
    refine Ends.bind (resolve_ends p.typeName p.dimensions place hunknown.1) fun type e1 h1 => ?_
    obtain ⟨rfl, htype⟩ := h1
    refine Ends.bind (ih hunknown.2) fun types e2 h2 => Ends.pure ⟨h2.1, ?_⟩
    rw [zip_cons_cons, map_cons, h2.2]
    simp [bindings, htype, Except.toOption]

omit hown in
theorem resultType_stays (returnType : Option String) (place : Option Location)
    (hunknown : ∀ name, returnType = some name → ∀ line, e.context.types.lookup name = none →
      Own (.diagnosed ⟨.unknownType name e.context.types.names, place, line⟩)) :
    Stays Own (resultType returnType place) e := by
  unfold resultType
  split
  · exact Stays.pure _
  · split_ifs
    · exact Stays.pure _
    · refine Ends.bind (resolve_ends _ [] place (hunknown _ rfl)) fun type e1 h1 => ?_
      obtain ⟨rfl, -⟩ := h1
      exact Stays.pure _

theorem method_opens (name : String) (parameters : List Parameter) (returnType : Option String)
    (place : Option Location) (how : Option Mode)
    (hunknown : ∀ name, (∃ p ∈ parameters, p.typeName = name) ∨ returnType = some name →
      ∀ line, e.context.types.lookup name = none →
      Own (.diagnosed ⟨.unknownType name e.context.types.names, place, line⟩)) :
    Opens (fun inner => method options name parameters returnType place (inner how)) e (fun _ => False)
      (fun how' inside => how' = how ∧ inside.sight = e.sight.entering (.method name parameters returnType) ∧
        inside.context.pool = e.context.pool ∧ inside.stream = .code)
      (fun e2 e' => e'.sight = e.sight.leaving (.method name parameters returnType) e2.sight) Own := by
  refine Opens.first (parameterTypes_ends parameters place fun p hp => hunknown _ (.inl ⟨p, hp, rfl⟩))
    (fun _ e1 h1 => h1.1 ▸ .refl _) fun types e1 h1 => ?_
  obtain ⟨rfl, hbindings⟩ := h1
  refine Opens.first (resultType_stays returnType place fun name hname => hunknown name (.inr hname))
    (fun _ e2 h2 => h2.sameUse) fun result e2 h2 => ?_
  refine Opens.first (emit_stays hown _) (fun _ e3 h3 => h3.sameUse) fun _ e3 h3 => ?_
  have h3 := h2.trans h3
  refine Opens.first (show Ends _ e3 (fun _ e' => e'.sight = { e3.sight with scope := e3.context.scope.enterMethod } ∧
    e'.context.pool = e3.context.pool) (fun stop _ => Own stop) from Ends.modify ⟨rfl, rfl⟩)
    (fun _ e4 h4 => h4.2 ▸ .refl _) fun _ e4 h4 => ?_
  refine Opens.first (declareAll_ends (fun x : Parameter × CType => ⟨some x.1.name, x.2, true⟩) _)
    (fun _ e5 h5 => h5.2 ▸ .refl _) fun _ e5 h5 => looked_opens ?_
  refine Opens.first (show Ends _ e5 (fun _ e' => e'.sight = { e5.sight with inMethod := true } ∧
    e'.context.pool = e5.context.pool ∧ e'.stream = .code) (fun stop _ => Own stop) from
      Ends.modify ⟨rfl, rfl, rfl⟩) (fun _ e6 h6 => h6.2.1 ▸ .refl _) fun _ e6 h6 => ?_
  refine Opens.mono (Opens.andThen (braced_opens hown _ how) fun e' e'' h =>
    show Ends _ e'' (fun _ e''' => e'''.sight =
      e1.sight.leaving (.method name parameters returnType) e'.sight) (fun stop _ => Own stop) from
        Ends.bind_modify (Ends.modify ?_)) (fun _ h => h) ?_ fun _ _ h => h
  · have hscope := congrArg Sight.scope h
    rw [← h]
    rfl
  · rintro how' inside ⟨rfl, hopened⟩
    refine ⟨rfl, ?_, ?_, hopened.still.stream.trans h6.2.2⟩
    · have hscope4 : e4.context.scope = e1.context.scope.enterMethod := by
        rw [← h3.scope]
        exact congrArg Sight.scope h4.1
      rw [hopened.still.sight, h6.1, h5.1, h4.1, h3.sight, hbindings, hscope4]
      rfl
    · rw [hopened.still.pool, h6.2.1, h5.2, h4.2, h3.pool]

end

/-! ### Nodes -/

/-- The way in which the lines of a block were read that is emitted in a way. -/
def blockReader : Option Mode → LineReader
  | none => .statements
  | some _ => .options

/-- The emission of a node without a block to enter: there is none, or the node is a named type with
one member. -/
structure Settled (n : Node) (e e' : Emitter) : Prop where
  closed : n.statement.opensBlock = false ∨ ∃ name member, n.statement = .structType name ∧
    n.body = [member] ∧ member.statement.isField = true
  sight : e'.sight = e.sight.after n.statement

structure Entered (n : Node) (e : Emitter) (how : Option Mode) (inside : Emitter) : Prop where
  opens : n.statement.opensBlock = true
  reader : n.statement.bodyReader = blockReader how
  unnamed : ∀ name, n.statement ≠ .structType name
  sight : inside.sight = e.sight.entering n.statement
  /-- A loop with a count holds one more counter. -/
  taken : if n.statement.isRepeat then ∃ counter, e.context.pool.acquire? = some (counter, inside.context.pool)
    else inside.context.pool = e.context.pool
  inMethod : n.statement.counter? ≠ none → e.inMethod = true
  /-- The block of a method goes to the code. -/
  stream : inside.stream = if n.statement.isMethod then .code else e.stream

theorem Entered.capacity {e inside : Emitter} (h : Entered n e how inside) :
    inside.context.pool.capacity = e.context.pool.capacity := by
  have htaken := h.taken
  split_ifs at htaken
  · obtain ⟨counter, htaken⟩ := htaken
    obtain ⟨_, -, -, -, hsize, -⟩ := acquire?_spec htaken
    exact hsize
  · rw [htaken]

variable {options : Options} {e : Emitter}

theorem Stays.opens (hopens : n.statement.opensBlock = false) (hsight : e.sight.after n.statement = e.sight)
    (h : Stays (n.Blamed e.context) m e) :
    Opens (fun _ => m) e (Settled n e) (Entered n e)
      (fun e2 e' => e'.sight = e.sight.leaving n.statement e2.sight) (n.Blamed e.context) :=
  Opens.leaf (h.weaken fun _ _ hstill => ⟨.inl hopens, hstill.sight.trans hsight.symm⟩)

theorem Opens.entered (hopens : n.statement.opensBlock = true)
    (hreader : n.statement.bodyReader = blockReader how) (hname : ∀ name, n.statement ≠ .structType name)
    (hcounter : n.statement.counter? = none ∧ n.statement.isRepeat = false)
    (hmethod : n.statement.isMethod = false) (hentering : e.sight.entering n.statement = e.sight)
    (hleaving : ∀ last, e.sight.leaving n.statement last = last)
    (h : Opens step e (fun _ => False) (fun how' inside => how' = how ∧ e.Still inside)
      (fun e2 e' => e'.sight = e2.sight) (n.Blamed e.context)) :
    Opens step e (Settled n e) (Entered n e)
      (fun e2 e' => e'.sight = e.sight.leaving n.statement e2.sight) (n.Blamed e.context) := by
  refine h.mono (fun _ h => h.elim) ?_ fun e2 e' h => h.trans (hleaving _).symm
  rintro how' inside ⟨rfl, hstill⟩
  refine ⟨hopens, hreader, hname, hstill.sight.trans hentering.symm, ?_, fun h => absurd hcounter.1 h, ?_⟩
  · rw [hcounter.2]
    exact hstill.pool
  · rw [hmethod]
    exact hstill.stream

theorem assignment_ends (name : String) (expression : List Token) (place : Option Location)
    (body : List Node) : Stays (Node.Blamed (.mk (.assignment name expression) place body) e.context)
      (assignment options name expression place) e := by
  have hown := Node.blamed_of_other (.mk (.assignment name expression) place body) e.context
  apply Ends.bind_get
  dsimp only
  split
  · next hfound =>
    split
    · refine Ends.of_error rfl ⟨?_, ?_, ?_⟩
      · rintro _ _ _ _ ⟨⟩
        exact ⟨rfl, ⟨expression, rfl⟩, hfound⟩
      · rintro _ _ _ _ ⟨⟩
      · rintro _ _ _ ⟨⟩
    · exact Ends.of_error rfl (hown _ rfl)
  · split_ifs
    · exact Stays.bind (requireMethod_stays hown _ _) fun _ _ _ => emit_stays hown _
    · exact emit_stays hown _

theorem statement_opens (n : Node) (hcapacity : e.context.pool.capacity ≤ capacityBound) :
    Opens (fun inner => statement options n.statement n.location n.body (inner none)
      fun mode => inner (some mode)) e (Settled n e) (Entered n e)
      (fun e2 e' => e'.sight = e.sight.leaving n.statement e2.sight) (n.Blamed e.context) := by
  have hown := n.blamed_of_other e.context
  obtain ⟨s, place, body⟩ := n
  have hmethodBlock : ∀ action opening, Opens
      (fun inner => methodBlock options action opening place (inner none)) e (fun _ => False)
      (fun how' inside => how' = none ∧ e.Still inside)
      (fun e2 e' => e'.sight = e2.sight) (Node.Blamed (.mk s place body) e.context) := fun action opening =>
    methodBlock_opens hown action opening place none
  cases s with
  | comment text => exact Stays.opens rfl rfl (comment_stays hown text)
  | declaration typeName names isMutable =>
    exact Opens.leaf ((declaration_ends hown _ _ _ _ fun harray line hnone =>
      (Node.Asks.declaration harray).blamed hnone _ line).weaken fun _ _ h => ⟨.inl rfl, h⟩)
  | assignment name expression => exact Stays.opens rfl rfl (assignment_ends _ _ _ _)
  | call name arguments => exact Stays.opens rfl rfl (call_stays hown _ _ _)
  | pass => exact Stays.opens rfl rfl (emit_stays hown _)
  | returns expression => exact Stays.opens rfl rfl (returns_stays hown _ _)
  | setMode mode choices => exact Stays.opens rfl rfl (setMode_stays hown _ _)
  | defaultMode mode choice => exact Stays.opens rfl rfl (defaultMode_stays hown _ _ _)
  | defineMode mode choice => exact Stays.opens rfl rfl (defineMode_stays hown _ _ _)
  | structType name =>
    refine Opens.leaf ((structureType_ends hown name body place ?_).weaken fun _ _ h => ?_)
    · rintro element dimensions isMutable location inner rfl hnone known line
      exact Node.Asks.element.blamed hnone known line
    · obtain ⟨hsight, member, hbody, hmember⟩ := h
      exact ⟨.inr ⟨name, member, rfl, hbody, hmember⟩, hsight⟩
  | method name parameters returnType =>
    refine (method_opens hown name parameters returnType place none ?_).mono (fun _ h => h.elim) ?_
      fun _ _ h => h
    · rintro _ (⟨p, hp, rfl⟩ | rfl) line hnone
      · exact (Node.Asks.parameter hp).blamed hnone _ line
      · exact Node.Asks.result.blamed hnone _ line
    · rintro how' inside ⟨rfl, hsight, hpool, hstream⟩
      exact ⟨rfl, rfl, nofun, hsight, hpool, fun h => absurd rfl h, hstream⟩
  | ifThen condition | elseIf condition | otherwise | whileLoop condition =>
    exact Opens.entered rfl rfl nofun ⟨rfl, rfl⟩ rfl rfl (fun _ => rfl) (hmethodBlock _ _)
  | forLoop start stop =>
    refine (forLoop_opens hown start stop place none).mono (fun _ h => h.elim) ?_ fun _ _ h => h
    rintro how' inside ⟨rfl, hsight, hpool, hstream, hinside, -⟩
    exact ⟨rfl, rfl, nofun, hsight, hpool, fun _ => hinside, hstream⟩
  | repeatLoop count =>
    refine (repeatLoop_opens hown hcapacity count place none fun hnone => ?_).mono (fun _ h => h.elim) ?_
      fun _ _ h => h
    · refine ⟨?_, ?_, ?_⟩
      · rintro _ _ _ _ ⟨⟩
      · rintro _ _ _ _ ⟨⟩
      · rintro _ _ _ ⟨⟩
        exact ⟨rfl, rfl, rfl, hnone⟩
    · rintro how' inside ⟨rfl, hsight, hstream, counter, htaken, -⟩
      exact ⟨rfl, rfl, nofun, hsight, ⟨counter, htaken⟩, fun h => absurd rfl h, hstream⟩
  | choose name =>
    refine looked_opens (Opens.first (orFail_ends place fun fault line hfault => hown _ ?_)
      (fun _ e1 h1 => h1.1 ▸ .refl _) fun mode e1 h1 => ?_)
    · unfold ModeRegistry.get at hfault
      split at hfault <;> cases hfault
      rfl
    · obtain ⟨rfl, -⟩ := h1
      exact Opens.block (some mode) ⟨rfl, rfl, nofun, rfl, rfl, fun h => absurd rfl h, rfl⟩ fun _ => rfl
  | option name => exact Opens.leaf (Ends.of_error rfl (hown _ rfl))

theorem Opens.noted {text : String} {step : (Option Mode → Emission Unit) → Emission Unit} {Leaf : Emitter → Prop}
    {Before : Option Mode → Emitter → Prop} {After : Emitter → Emitter → Prop}
    (h : ∀ entries, Opens step (Emitter.note entries e) Leaf Before After Own) :
    Opens (fun inner => note .debug text >>= fun _ => step inner) e Leaf Before After Own := by
  refine Opens.first (Q := fun _ e' => ∃ entries, e' = Emitter.note entries e) (Ends.modify ⟨_, rfl⟩) ?_ ?_
  · rintro _ _ ⟨entries, rfl⟩
    exact .refl _
  · rintro _ _ ⟨entries, rfl⟩
    exact h entries

theorem visit_opens (options : Options) (how : Option Mode) (n : Node)
    (hcapacity : e.context.pool.capacity ≤ capacityBound) :
    Opens (visit options how n) e (Settled n e) (Entered n e)
      (fun e2 e' => e'.sight = e.sight.leaving n.statement e2.sight) (n.Blamed e.context) := by
  have hown := n.blamed_of_other e.context
  have hnoted : Opens (fun inner => noted options n.statement n.location n.body (inner none)
      fun mode => inner (some mode)) e (Settled n e) (Entered n e)
      (fun e2 e' => e'.sight = e.sight.leaving n.statement e2.sight) (n.Blamed e.context) := by
    unfold noted
    split
    · exact statement_opens n hcapacity
    · refine .noted fun entries =>
        (statement_opens (e := Emitter.note entries e) n hcapacity).mono ?_ ?_ fun _ _ h => h
      · exact fun _ h => ⟨h.closed, h.sight⟩
      · exact fun _ _ h => ⟨h.opens, h.reader, h.unnamed, h.sight, h.taken, h.inMethod, h.stream⟩
  obtain ⟨s, place, body⟩ := n
  cases how with
  | none => exact hnoted
  | some mode =>
    cases s with
    | option choice =>
      exact Opens.entered rfl (show _ = blockReader none from rfl) nofun ⟨rfl, rfl⟩ rfl rfl (fun _ => rfl)
        (modeOption_opens hown mode choice place none)
    | _ => exact hnoted

end Emission

end CirOutline
