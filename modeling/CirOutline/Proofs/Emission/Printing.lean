import CirOutline.Compilation
import CirOutline.Proofs.Emission.Printer
import CirOutline.Proofs.Outcome

/-!
Emission writes what its printer prints. Whatever the steps of an emission do with the open groups,
with the two lists of lines and with the journal, and in whichever order they switch between the
header and the code, the lines that a whole emission leaves are those of the printer of the program.
-/

namespace CirOutline

open List Piece Printer

variable {body : List Node} {emitted : Mode → Emission Unit} {f : Context → Context}
  {l m inner : Emission Unit} {q p : Printer} {s : Statement} {α : Type}

/-! ### Steps of an emission -/

def Emitter.written (e : Emitter) : Stream → List String
  | .header => e.header
  | .code => e.code

/-- A step has written lines to the list that is being written, and nothing else. -/
structure Emitter.Wrote (lines : List String) (e e' : Emitter) : Prop where
  groups : e'.groups = e.groups
  stream : e'.stream = e.stream
  here : e'.written e.stream = e.written e.stream ++ lines
  there : ∀ stream, stream ≠ e.stream → e'.written stream = e.written stream

namespace Emitter.Wrote

variable {e e' e'' : Emitter} {a b : List String}

theorem refl (e : Emitter) : e.Wrote [] e := ⟨rfl, rfl, (append_nil _).symm, fun _ _ => rfl⟩

theorem trans (h : e.Wrote a e') (h' : e'.Wrote b e'') : e.Wrote (a ++ b) e'' where
  groups := h'.groups.trans h.groups
  stream := h'.stream.trans h.stream
  here := by
    have hhere := h'.here
    rw [h.stream, h.here, append_assoc] at hhere
    exact hhere
  there := by
    intro stream hstream
    rw [h'.there stream (by rw [h.stream]; exact hstream), h.there stream hstream]

theorem header (h : e.Wrote a e') (hstream : e.stream = .header) :
    e'.header = e.header ++ a ∧ e'.code = e.code := by
  have hhere := h.here
  rw [hstream] at hhere
  exact ⟨hhere, h.there .code (by rw [hstream]; nofun)⟩

theorem code (h : e.Wrote a e') (hstream : e.stream = .code) : e'.header = e.header ∧ e'.code = e.code ++ a := by
  have hhere := h.here
  rw [hstream] at hhere
  exact ⟨h.there .header (by rw [hstream]; nofun), hhere⟩

theorem of_same (hgroups : e'.groups = e.groups) (hstream : e'.stream = e.stream)
    (hheader : e'.header = e.header) (hcode : e'.code = e.code) : e.Wrote [] e' := by
  have hwritten : ∀ stream, e'.written stream = e.written stream := by
    rintro (_ | _)
    · exact hheader
    · exact hcode
  exact ⟨hgroups, hstream, by rw [hwritten, append_nil], fun stream _ => hwritten stream⟩

end Emitter.Wrote

def Piece.texts (width : Int) (groups : Nat) (pieces : List Piece) : List String :=
  (allMarked groups pieces).map (PrintedLine.text width)

theorem Piece.texts_append (width : Int) (groups : Nat) (ps qs : List Piece) :
    texts width groups (ps ++ qs) = texts width groups ps ++ texts width groups qs := by
  rw [texts, allMarked_append, map_append]
  rfl

namespace Emission

variable {options : Options} {e : Emitter}

/-- Where the step gives a value, what it wrote and learnt is what the printer gives. -/
def Refines (options : Options) (m : Emission Unit) (p : Printer) : Prop :=
  ∀ e : Emitter, Ends m e (fun _ e' => ∃ pieces, p e.context = some (pieces, e'.context) ∧
    e.Wrote (texts options.indentWidth e.groups pieces) e') fun _ _ => True

def Quiet {α : Type} (m : Emission α) : Prop :=
  ∀ e : Emitter, Ends m e (fun _ e' => e'.context = e.context ∧ e.Wrote [] e') fun _ _ => True

def Looks {α : Type} (m : Emission α) (found : Context → Option α) : Prop :=
  ∀ e : Emitter, Ends m e (fun a e' => found e.context = some a ∧ e'.context = e.context ∧ e.Wrote [] e')
    fun _ _ => True

theorem emit_wrote (line : String) : Ends (emit options line) e (fun _ e' => e'.context = e.context ∧
      e.Wrote [shift (options.indentWidth * e.groups) line] e') fun _ _ => True := by
  have hwrite : ∀ line, (e.write line).context = e.context ∧ e.Wrote [line] (e.write line) := by
    intro line
    unfold Emitter.write
    split
    · next hstream =>
      refine ⟨rfl, rfl, rfl, by rw [hstream]; rfl, ?_⟩
      rintro (_ | _) hother
      · exact absurd hstream.symm hother
      · rfl
    · next hstream =>
      refine ⟨rfl, rfl, rfl, by rw [hstream]; rfl, ?_⟩
      rintro (_ | _) hother
      · rfl
      · exact absurd hstream.symm hother
  apply Ends.bind_get
  unfold Emitter.emit shift
  split_ifs with hempty
  · exact Ends.of_ok rfl (hwrite line)
  · rw [Emitter.margin, Allocation.spaces, Allocation.cells]
    split_ifs
    · exact Ends.of_error rfl trivial
    · exact Ends.of_error rfl trivial
    · exact Ends.of_ok rfl (hwrite _)

theorem learn_refines (f : Context → Context) : Refines options (learn f) fun c => some ([], f c) := by
  intro e
  exact Ends.modify ⟨[], rfl, .of_same rfl rfl rfl rfl⟩

theorem say_refines (line : String) : Refines options (emit options line) (say line) := by
  intro e
  refine (emit_wrote line).weaken fun _ e' h => ⟨[.line line], ?_, h.2⟩
  rw [h.1]
  rfl

theorem Refines.andThen {m' : Emission Unit} (hm : Refines options m p) (hm' : Refines options m' q) :
    Refines options (m >>= fun _ => m') (p.andThen q) := by
  intro e
  refine Ends.bind (hm e) fun _ e1 h1 => (hm' e1).weaken fun _ e2 h2 => ?_
  obtain ⟨before, hbefore, hwrote⟩ := h1
  obtain ⟨after, hafter, hwrote'⟩ := h2
  refine ⟨before ++ after, by simp [Printer.andThen, hbefore, hafter], ?_⟩
  rw [hwrote.groups] at hwrote'
  rw [texts_append]
  exact hwrote.trans hwrote'

theorem Refines.looked {look : Emission α} {found : Context → Option α} {m : α → Emission Unit}
    {p : α → Printer} (hlook : Looks look found) (hm : ∀ a, Refines options (m a) (p a)) :
    Refines options (look >>= m) fun c => (found c).bind fun a => p a c := by
  intro e
  refine Ends.bind (hlook e) fun a e1 h1 => (hm a e1).weaken fun _ e2 h2 => ?_
  obtain ⟨hfound, hcontext, hwrote⟩ := h1
  obtain ⟨pieces, hpieces, hwrote'⟩ := h2
  rw [hcontext] at hpieces
  rw [hwrote.groups] at hwrote'
  exact ⟨pieces, by simp [hfound, hpieces], hwrote.trans hwrote'⟩

theorem Refines.quiet {look : Emission α} {m : α → Emission Unit} (hlook : Quiet look)
    (hm : ∀ a, Refines options (m a) p) : Refines options (look >>= m) p := by
  intro e
  refine Ends.bind (hlook e) fun a e1 h1 => (hm a e1).weaken fun _ e2 h2 => ?_
  obtain ⟨hcontext, hwrote⟩ := h1
  obtain ⟨pieces, hpieces, hwrote'⟩ := h2
  rw [hcontext] at hpieces
  rw [hwrote.groups] at hwrote'
  exact ⟨pieces, hpieces, hwrote.trans hwrote'⟩

theorem requireMethod_quiet (action : String) (place : Option Location) : Quiet (requireMethod action place) := by
  intro e
  apply Ends.bind_get
  split_ifs
  · exact Ends.pure ⟨rfl, .refl e⟩
  · exact Ends.of_error rfl trivial

theorem note_quiet (severity : Severity) (text : String) : Quiet (note severity text) :=
  fun _ => Ends.modify ⟨rfl, .of_same rfl rfl rfl rfl⟩

theorem orFail_looks (place : Option Location) (found : Context → Except Fault α) :
    Looks (do orFail place (found (← get).context)) fun c => (found c).toOption := by
  intro e
  apply Ends.bind_get
  cases hfound : found e.context with
  | ok a => exact Ends.pure ⟨by simp [hfound, Except.toOption], rfl, .refl e⟩
  | error fault => exact Ends.of_error rfl trivial

theorem Refines.found {m : α → Emission Unit} {p : α → Printer} (place : Option Location)
    (found : Context → Except Fault α) (hm : ∀ a, Refines options (m a) (p a)) :
    Refines options (get >>= fun e : Emitter => orFail place (found e.context) >>= m)
      fun c => (found c).toOption.bind fun a => p a c := by
  have hlooked := Refines.looked (orFail_looks place found) hm
  rwa [bind_assoc] at hlooked

theorem Refines.required (hm : Refines options m p) (action : String) (place : Option Location) :
    Refines options (requireMethod action place >>= fun _ => m) p :=
  Refines.quiet (requireMethod_quiet action place) fun _ => hm

section

variable (h : Refines options inner p)
include h

theorem grouped_wrote : Ends (grouped inner) e (fun _ e' => ∃ pieces, p e.context = some (pieces, e'.context) ∧
      e.Wrote (texts options.indentWidth (e.groups + 1) pieces) e') fun _ _ => True := by
  refine Ends.bind_modify (Ends.bind (h _) fun _ e1 h1 => Ends.bind_get ?_)
  obtain ⟨pieces, hpieces, hwrote⟩ := h1
  split_ifs
  · exact Ends.of_error rfl trivial
  · refine Ends.of_ok rfl ⟨pieces, hpieces, ?_, hwrote.stream, hwrote.here, hwrote.there⟩
    change e1.groups - 1 = e.groups
    rw [hwrote.groups]
    rfl

theorem block_wrote (opening closing : String) :
    Ends (do emit options opening; grouped inner; emit options closing) e
      (fun _ e' => ∃ pieces, p e.context = some (pieces, e'.context) ∧
        e.Wrote (shift (options.indentWidth * e.groups) opening ::
          (texts options.indentWidth (e.groups + 1) pieces ++
            [shift (options.indentWidth * e.groups) closing])) e') fun _ _ => True := by
  refine Ends.bind (emit_wrote opening) fun _ e1 h1 => ?_
  refine Ends.bind (grouped_wrote h) fun _ e2 h2 => (emit_wrote closing).weaken fun _ e3 h3 => ?_
  obtain ⟨hcontext1, hwrote1⟩ := h1
  obtain ⟨pieces, hpieces, hwrote2⟩ := h2
  obtain ⟨hcontext3, hwrote3⟩ := h3
  refine ⟨pieces, by rw [hcontext3, ← hpieces, hcontext1], ?_⟩
  rw [hwrote2.groups, hwrote1.groups] at hwrote3
  rw [hwrote1.groups] at hwrote2
  exact hwrote1.trans (hwrote2.trans hwrote3)

theorem braced_refines (opening : String) :
    Refines options (braced options opening inner) (Printer.braced opening p) := by
  intro e
  refine (block_wrote h _ _).weaken fun _ e' hwrote => ?_
  obtain ⟨pieces, hpieces, hwrote⟩ := hwrote
  refine ⟨[.braces opening pieces], by simp [Printer.braced, hpieces], ?_⟩
  simpa [texts, allMarked, marked, PrintedLine.text] using hwrote

end

/-! ### Statements without a block -/

theorem Refines.congr (h : Refines options m p) (hpq : ∀ c, p c = q c) : Refines options m q :=
  funext hpq ▸ h

theorem nothing_refines : Refines options (pure ()) nothing :=
  fun e => Ends.pure ⟨[], rfl, .refl e⟩

theorem fail_refines (fault : Fault) (place : Option Location) (p : Printer) :
    Refines options (fail fault place) p :=
  fun _ => Ends.of_error rfl trivial

theorem resolve_looks (name : String) (dimensions : List String) (place : Option Location) :
    Looks (resolve name dimensions place) fun c => (c.types.resolve name dimensions).toOption :=
  orFail_looks place fun c => c.types.resolve name dimensions

theorem declare_refines (b : Binding) :
    Refines options (declare b) fun c => some ([], { c with scope := c.scope.declare b }) :=
  fun _ => Ends.bind_get (Ends.bind_modify (Ends.modify ⟨[], rfl, .of_same rfl rfl rfl rfl⟩))

theorem declareAll_refines (options : Options) (binding : α → Binding) (items : List α) :
    Refines options (items.forM fun a => declare (binding a)) fun c =>
      some ([], { c with scope := items.foldl (fun scope a => scope.declare (binding a)) c.scope }) := by
  induction items with
  | nil => exact nothing_refines
  | cons a items ih => exact ((declare_refines (binding a)).andThen ih).congr fun c => rfl

theorem comment_refines (text : String) :
    Refines options (comment options text) (Printer.comment options text) := by
  unfold comment Printer.comment
  split_ifs
  · exact say_refines _
  · exact nothing_refines

theorem declaration_refines (typeName : String) (names : List String) (isMutable : Bool)
    (place : Option Location) : Refines options (declaration options typeName names isMutable place)
      (Printer.declaration typeName names isMutable) := by
  unfold declaration
  split_ifs with harray
  · exact fail_refines _ _ _
  · have hname : typeName ≠ arrayTypeName := by simpa using harray
    refine Refines.congr (Refines.looked (resolve_looks typeName [] place) fun type =>
      (declareAll_refines options (fun name => ⟨some name, type, isMutable⟩) names).andThen
        (say_refines _)) fun c => ?_
    simp only [Printer.declaration, guard, hname, ne_eq, not_false_eq_true, if_true]
    rfl

theorem assignment_refines (name : String) (expression : List Token) (place : Option Location) :
    Refines options (assignment options name expression place)
      (Printer.assignment name expression) := by
  intro e
  apply Ends.bind_get
  dsimp only
  split
  · split
    · exact Ends.of_error rfl trivial
    · exact Ends.of_error rfl trivial
  · next b hfound =>
    have hprinter : Printer.assignment name expression e.context =
        if b.isMutable then Printer.say (name ++ " = " ++ Expression.render expression ++ ";") e.context
        else say ("#define " ++ name ++ " ((" ++ b.type.text ++ ") " ++
          Expression.render expression ++ ")") e.context := by
      simp [Printer.assignment, hfound]
    rw [hprinter]
    split_ifs
    · exact (say_refines _).required _ _ e
    · exact say_refines _ e

theorem argumentType_quiet (callee : String) (argument : List Token) : Quiet (argumentType callee argument) := by
  intro e
  unfold argumentType
  split
  · apply Ends.bind_get
    split
    · exact Ends.pure ⟨rfl, .refl e⟩
    · exact Ends.bind_modify (Ends.pure ⟨rfl, .of_same rfl rfl rfl rfl⟩)
  · exact Ends.pure ⟨rfl, .refl e⟩

theorem Quiet.mapM {β : Type} {f : α → Emission β} (h : ∀ a, Quiet (f a)) (items : List α) :
    Quiet (items.mapM f) := by
  induction items with
  | nil => exact fun e => Ends.pure ⟨rfl, .refl e⟩
  | cons a items ih =>
    intro e
    rw [mapM_cons]
    refine Ends.bind (h a e) fun _ e1 h1 => Ends.bind (ih e1) fun _ e2 h2 => Ends.pure ?_
    exact ⟨h2.1.trans h1.1, h1.2.trans h2.2⟩

theorem call_refines (name : String) (arguments : List Token) (place : Option Location) :
    Refines options (call options name arguments place)
      (say (name ++ "(" ++ Expression.render arguments ++ ");")) :=
  Refines.required (Refines.quiet (Quiet.mapM (argumentType_quiet name) _) fun _ =>
    Refines.quiet (note_quiet _ _) fun _ => say_refines _) _ _

theorem Refines.after (hm : Refines options m p) (hl : Refines options l fun c => some ([], f c)) :
    Refines options (l >>= fun _ => m) fun c => p (f c) := by
  refine Refines.congr (hl.andThen hm) fun c => ?_
  cases hp : p (f c) <;> simp [Printer.andThen, hp]

theorem Refines.before (hm : Refines options m p) (hl : Refines options l fun c => some ([], f c)) :
    Refines options (m >>= fun _ => l) fun c => (p c).bind fun (pieces, c) => some (pieces, f c) := by
  refine Refines.congr (hm.andThen hl) fun c => ?_
  cases hp : p c <;> simp [Printer.andThen, hp]

theorem structureMember_refines (name : String) (member : Node) :
    Refines options (structureMember options name member) (Printer.structureMember name member) := by
  obtain ⟨s, location, inner⟩ := member
  unfold structureMember
  cases s with
  | pass => exact say_refines _
  | declaration typeName names isMutable =>
    dsimp only [Node.statement]
    split_ifs with harray
    · exact fail_refines _ _ _
    · have hname : typeName = arrayTypeName := by simpa using harray
      match names with
      | [] => exact fun _ => Ends.of_error rfl trivial
      | [element] => exact fail_refines _ _ _
      | element :: dimension :: dimensions =>
        refine Refines.congr (Refines.looked (resolve_looks element _ location) fun type =>
          say_refines _) fun c => ?_
        simp [Printer.structureMember, Node.statement, guard, hname]
  | _ => exact fail_refines _ _ _

theorem structureType_refines (name : String) (body : List Node) (place : Option Location) :
    Refines options (structureType options name body place) (Printer.structureType name body) := by
  match body with
  | [] => exact (Refines.after (fail_refines _ _ fun _ => none) (learn_refines _)).congr fun _ => rfl
  | [member] => exact (structureMember_refines name member).after (learn_refines _)
  | _ :: _ :: _ =>
    exact (Refines.after (fail_refines _ _ fun _ => none) (learn_refines _)).congr fun _ => rfl

theorem setMode_refines (name : String) (choices : List String) (body : List Node) (inner : Printer)
    (print : Mode → Printer) : Refines options (setMode options name choices)
      (Printer.statement options (.setMode name choices) body inner print) := by
  intro e
  refine Ends.bind_get (Ends.bind_modify (Ends.bind_modify ?_))
  refine (emit_wrote _).weaken fun _ e' h => ⟨[.line _], ?_, h.2.groups, h.2.stream, h.2.here, h.2.there⟩
  rw [h.1]
  rfl

theorem Refines.relined (h : Refines options m p)
    (hlines : ∀ c pieces c', p c = some (pieces, c') → ∃ others, q c = some (others, c') ∧
      ∀ groups, texts options.indentWidth groups others =
        texts options.indentWidth groups pieces) : Refines options m q := by
  intro e
  refine (h e).weaken fun _ e' hprints => ?_
  obtain ⟨pieces, hpieces, hwrote⟩ := hprints
  obtain ⟨others, hothers, hsame⟩ := hlines _ _ _ hpieces
  exact ⟨others, hothers, hsame e.groups ▸ hwrote⟩

theorem defaultMode_refines (name choice : String) (place : Option Location) :
    Refines options (defaultMode options name choice place) (Printer.defaultMode name choice) := by
  refine Refines.relined (Refines.found place (fun c => c.modes.validate name choice)
    fun mode => (say_refines _).andThen ((say_refines _).andThen ((say_refines _).andThen
      (?_ : Refines options _ fun c => some ([], { c with
        modes := mode.current.elim (c.modes.put { mode with current := some choice })
          fun _ => c.modes }))))) fun c pieces c' hpieces => ?_
  · cases mode.current with
    | none => exact learn_refines fun c =>
      { c with modes := c.modes.put { mode with current := some choice } }
    | some _ => exact nothing_refines
  obtain ⟨mode, hmode, hpieces⟩ := Option.bind_eq_some_iff.mp hpieces
  cases hpieces
  refine ⟨[.fallback (" && ".intercalate (mode.symbols.map fun symbol => "!defined(" ++ symbol ++ ")"))
    (mode.symbol choice)], ?_, fun groups => ?_⟩
  · rw [Printer.defaultMode, hmode, Option.bind_eq_bind, Option.bind_some]
    cases mode.current <;> rfl
  · simp [texts, allMarked, marked, PrintedLine.text]

theorem defineMode_refines (name choice : String) (place : Option Location) :
    Refines options (defineMode options name choice place) (Printer.defineMode name choice) := by
  refine Refines.congr (Refines.found place (fun c => c.modes.validate name choice)
    (p := fun mode c => some ((mode.current.toList.map fun current =>
      line ("#undef " ++ mode.symbol current)) ++ [.line ("#define " ++ mode.symbol choice)],
      { c with modes := c.modes.put { mode with current := some choice } })) fun mode => ?_) fun c => rfl
  split
  · next current hcurrent =>
    refine Refines.congr ((say_refines _).andThen ((say_refines _).andThen (learn_refines _)))
      fun c => ?_
    simp [hcurrent]
    rfl
  · next hcurrent =>
    refine Refines.congr ((say_refines _).andThen (learn_refines _)) fun c => ?_
    simp [hcurrent]
    rfl

/-! ### Statements with a block -/

section

variable (h : Refines options inner p)
include h

theorem forLoop_refines (start stop : List Token) (place : Option Location) :
    Refines options (forLoop options start stop place inner) (Printer.forLoop start stop p) := by
  refine Refines.required (fun e => Ends.bind_get ?_) _ _
  unfold Printer.forLoop
  cases hfound : e.context.scope.lookup (Statement.iterator? start) with
  | some b => simpa only [hfound] using braced_refines h _ e
  | none =>
    simp only [hfound]
    exact ((braced_refines h _).before (learn_refines _)).after (declare_refines _) e

theorem repeatLoop_refines (count : List Token) (place : Option Location) :
    Refines options (repeatLoop options count place inner) (Printer.repeatLoop count p) := by
  refine Refines.required (fun e => Ends.bind_get ?_) _ _
  cases htaken : e.context.pool.acquire? with
  | none =>
    simp only [htaken]
    exact Ends.of_error rfl trivial
  | some taken =>
    obtain ⟨counter, pool⟩ := taken
    simp only [htaken]
    refine Ends.bind_modify ?_
    have hblock := braced_refines h ("for(int " ++ counter ++ " = 0; " ++ counter ++ " < " ++
      Expression.render count ++ "; " ++ counter ++ "++)")
      { e with context := { e.context with pool := pool } }
    -- the counter is given back whether or not the block stops
    cases hrun : braced options ("for(int " ++ counter ++ " = 0; " ++ counter ++ " < " ++
        Expression.render count ++ "; " ++ counter ++ "++)") inner
        { e with context := { e.context with pool := pool } } with
    | error stop e1 =>
      simp only [Ends, hrun]
      cases release counter e1 <;> trivial
    | ok _ e1 =>
      obtain ⟨pieces, hpieces, hwrote⟩ := hblock.ok hrun
      cases hrelease : e1.context.pool.release counter with
      | error problem =>
        simp only [Ends, hrun, release, get_bind, hrelease]
        cases problem <;> trivial
      | ok after =>
        refine Ends.of_ok (show _ = EStateM.Result.ok ()
          { e1 with context := { e1.context with pool := after } } from ?_) ⟨pieces, ?_, ?_⟩
        · simp only [hrun, release, get_bind, hrelease]
          rfl
        · simp [Printer.repeatLoop, htaken, hpieces, hrelease, Except.toOption]
        · exact ⟨hwrote.groups, hwrote.stream, hwrote.here, hwrote.there⟩

theorem modeOption_refines (mode : Mode) (choice : String) (place : Option Location) :
    Refines options (modeOption options mode choice place inner) (Printer.modeOption mode choice p) := by
  refine Refines.congr (Refines.found place (fun c => c.modes.validate mode.name choice)
    (p := fun _ c => (p c).bind fun (pieces, c) => some ([.option (mode.symbol choice) pieces], c))
    fun _ e => ?_) fun c => rfl
  refine (block_wrote h _ _).weaken fun _ e' hwrote => ?_
  obtain ⟨pieces, hpieces, hwrote⟩ := hwrote
  refine ⟨[.option (mode.symbol choice) pieces], by simp [hpieces], ?_⟩
  simpa [texts, allMarked, marked, PrintedLine.text] using hwrote

end

theorem statement_refines (body : List Node) {printed : Mode → Printer} (hmethod : s.isMethod = false)
    (hinner : Refines options inner p) (hchoices : ∀ mode, Refines options (emitted mode) (printed mode))
    (place : Option Location) :
    Refines options (statement options s place body inner emitted)
      (Printer.statement options s body p printed) := by
  cases s with
  | comment text => exact comment_refines text
  | declaration typeName names isMutable => exact declaration_refines _ _ _ _
  | assignment name expression => exact assignment_refines _ _ _
  | call name arguments => exact call_refines _ _ _
  | pass => exact say_refines _
  | returns expression => exact (say_refines _).required _ _
  | setMode mode choices => exact setMode_refines _ _ _ _ _
  | defaultMode mode choice => exact defaultMode_refines _ _ _
  | defineMode mode choice => exact defineMode_refines _ _ _
  | structType name => exact structureType_refines name body place
  | method name parameters returnType => exact absurd hmethod (by simp [Statement.isMethod])
  | ifThen condition | elseIf condition | otherwise | whileLoop condition =>
    exact (braced_refines hinner _).required _ _
  | forLoop start stop => exact forLoop_refines hinner _ _ _
  | repeatLoop count => exact repeatLoop_refines hinner _ _
  | choose name => exact Refines.found place (fun c => c.modes.get name) hchoices
  | option name => exact fun _ => Ends.of_error rfl trivial

theorem noted_refines {place : Option Location}
    (h : Refines options (statement options s place body inner emitted) p) :
    Refines options (noted options s place body inner emitted) p := by
  unfold noted
  split
  · exact h
  · exact Refines.quiet (note_quiet _ _) fun _ => h

theorem nodes_refines (options : Options) (ns : List Node) (h : ∀ s ∈ Node.statements ns, s.isMethod = false) :
    Refines options (nodes options ns) (Printer.nodes options ns) ∧
      ∀ mode, Refines options (modeOptions options mode ns) (choices options mode ns) := by
  induction ns using Node.forest_induction with
  | nil => exact ⟨nothing_refines, fun _ => nothing_refines⟩
  | cons s location body ns ihbody ihns =>
    rw [Node.forall_statements_cons] at h
    obtain ⟨hs, hbody, hns⟩ := h
    obtain ⟨hinner, hchoices⟩ := ihbody hbody
    have hnode := noted_refines (statement_refines body hs hinner hchoices location)
    refine ⟨hnode.andThen (ihns hns).1, fun mode => ?_⟩
    unfold modeOptions choices
    cases s with
    | option choice =>
      exact (modeOption_refines hinner mode choice location).andThen ((ihns hns).2 mode)
    | _ => exact hnode.andThen ((ihns hns).2 mode)

/-! ### Methods and programs -/

/-- The code with one more definition, after an empty line unless it is the first. -/
def appendDefinition (width : Int) (code : List String) (definition : Piece) : List String :=
  (if code.isEmpty then code else code ++ [""]) ++ definition.lines width

theorem parameterTypes_looks (parameters : List Parameter) (place : Option Location) :
    Looks (parameterTypes parameters place) fun c =>
      parameters.mapM fun p => (c.types.resolve p.typeName p.dimensions).toOption := by
  unfold parameterTypes
  induction parameters with
  | nil => exact fun e => Ends.pure ⟨rfl, rfl, .refl e⟩
  | cons p parameters ih =>
    intro e
    rw [mapM_cons]
    refine Ends.bind (resolve_looks p.typeName p.dimensions place e) fun type e1 h1 => ?_
    refine Ends.bind (ih e1) fun types e2 h2 => Ends.pure ?_
    obtain ⟨htype, hcontext1, hwrote1⟩ := h1
    obtain ⟨htypes, hcontext2, hwrote2⟩ := h2
    rw [hcontext1] at htypes
    refine ⟨?_, hcontext2.trans hcontext1, hwrote1.trans hwrote2⟩
    simp only [mapM_cons, htype, htypes]
    rfl

theorem resultType_looks (returnType : Option String) (place : Option Location) :
    Looks (resultType returnType place) (Printer.resultType returnType) := by
  intro e
  unfold resultType Printer.resultType
  cases returnType with
  | none => exact Ends.pure ⟨rfl, rfl, .refl e⟩
  | some name =>
    dsimp only
    split_ifs
    · exact Ends.pure ⟨rfl, rfl, .refl e⟩
    · refine Ends.bind (resolve_looks name [] place e) fun type e1 h1 => Ends.pure ?_
      exact ⟨by simp [h1.1], h1.2⟩

theorem method_wrote (h : Refines options inner p) (hstream : e.stream = .header)
    (hgroups : e.groups = 0) (name : String) (parameters : List Parameter)
    (returnType : Option String) (place : Option Location) :
    Ends (method options name parameters returnType place inner) e (fun _ e' =>
      ∃ head inside pieces after, signature name parameters returnType e.context = some (head, inside) ∧
        p inside = some (pieces, after) ∧
        e'.context = { after with scope := after.scope.exitMethod } ∧
        e'.stream = .header ∧ e'.groups = 0 ∧ e'.header = e.header ++ [head ++ ";"] ∧
        e'.code = appendDefinition options.indentWidth e.code (.braces head pieces)) fun _ _ => True := by
  refine Ends.bind (parameterTypes_looks parameters place e) fun types e1 h1 => ?_
  refine Ends.bind (resultType_looks returnType place e1) fun result e2 h2 => ?_
  refine Ends.bind (emit_wrote _) fun _ e3 h3 => Ends.bind_modify ?_
  refine Ends.bind (declareAll_refines options
    (fun x : Parameter × CType => ⟨some x.1.name, x.2, true⟩) _ _) fun _ e4 h4 => ?_
  refine Ends.bind_get (Ends.bind_modify ?_)
  refine Ends.bind (braced_refines h _ _) fun _ e5 h5 => Ends.bind_modify (Ends.modify ?_)
  obtain ⟨htypes, hcontext1, hwrote1⟩ := h1
  obtain ⟨hresult, hcontext2, hwrote2⟩ := h2
  obtain ⟨hcontext3, hwrote3⟩ := h3
  obtain ⟨none4, hfound4, hwrote4⟩ := h4
  obtain ⟨rfl, hcontext4⟩ := Prod.mk.inj (Option.some.inj hfound4)
  obtain ⟨block, hblock, hwrote5⟩ := h5
  obtain ⟨⟨pieces, after⟩, hpieces, hblock⟩ := Option.bind_eq_some_iff.mp hblock
  cases hblock
  have hcontext : e3.context = e.context := hcontext3.trans (hcontext2.trans hcontext1)
  have hwrote := (hwrote1.trans hwrote2).trans hwrote3
  have hgroups2 : e2.groups = 0 := (hwrote1.trans hwrote2).groups.trans hgroups
  have hgroups4 : e4.groups = 0 := hwrote4.groups.trans (hwrote.groups.trans hgroups)
  have hstream3 : e3.stream = .header := hwrote.stream.trans hstream
  obtain ⟨hheader3, hcode3⟩ := hwrote.header hstream
  obtain ⟨hheader4, hcode4⟩ := hwrote4.header hstream3
  obtain ⟨hheader5, hcode5⟩ := hwrote5.code rfl
  have hcode : e4.code = e.code := hcode4.trans hcode3
  refine ⟨head result name (parameters.zip types), e4.context, pieces, e5.context, ?_,
    hpieces, rfl, ?_, ?_, ?_, ?_⟩
  · rw [hcontext1] at hresult
    have htypes : parameters.mapM (fun p => (e.context.types.resolve p.typeName p.dimensions).toOption) =
        some types := htypes
    rw [← hcontext4, signature, htypes, Option.bind_eq_bind, Option.bind_some, hresult]
    simp only [hcontext]
    rfl
  · exact hwrote4.stream.trans hstream3
  · exact hwrote5.groups.trans hgroups4
  · rw [hgroups2, Int.natCast_zero, Int.mul_zero, shift_zero] at hheader3
    exact hheader5.trans (hheader4.trans ((append_nil _).trans hheader3))
  · have hlines : texts options.indentWidth 0 = allLines options.indentWidth := by
      funext ps
      exact (allLines_eq _ ps).symm
    change e5.code = _ at hcode5
    rw [hcode5, hgroups4, hlines]
    simp only [hcode, appendDefinition, allLines, append_nil]
    rfl

theorem node_wrote {location : Option Location} (hs : s.isMethod = false)
    (hbody : ∀ t ∈ Node.statements body, t.isMethod = false) (hstream : e.stream = .header)
    (hgroups : e.groups = 0) :
    Ends (node options (.mk s location body)) e (fun _ e' => ∃ pieces,
      Printer.node options (.mk s location body) e.context = some (pieces, e'.context) ∧
      e'.stream = .header ∧ e'.groups = 0 ∧
      e'.header = e.header ++ allLines options.indentWidth pieces ∧ e'.code = e.code)
      fun _ _ => True := by
  obtain ⟨hinner, hchoices⟩ := nodes_refines options body hbody
  have hnode := noted_refines (statement_refines body hs hinner hchoices location)
  refine (hnode e).weaken fun _ e' h => ?_
  obtain ⟨pieces, hpieces, hwrote⟩ := h
  obtain ⟨hheader, hcode⟩ := hwrote.header hstream
  rw [hgroups, texts, ← allLines_eq] at hheader
  exact ⟨pieces, hpieces, hwrote.stream.trans hstream, hwrote.groups.trans hgroups, hheader, hcode⟩

theorem program_wrote (options : Options) (forest : List Node) (hmethods : Node.MethodsOutside forest)
    (hstream : e.stream = .header) (hgroups : e.groups = 0) :
    Ends (nodes options forest) e (fun _ e' => ∃ header definitions,
      Printer.program options forest e.context = some (header, definitions, e'.context) ∧
      e'.stream = .header ∧ e'.groups = 0 ∧
      e'.header = e.header ++ allLines options.indentWidth header ∧
      e'.code = definitions.foldl (appendDefinition options.indentWidth) e.code) fun _ _ => True := by
  induction forest generalizing e with
  | nil => exact Ends.pure ⟨[], [], rfl, hstream, hgroups, by simp [allLines], rfl⟩
  | cons n rest ih =>
    obtain ⟨hbody, hrest⟩ := forall_mem_cons.mp hmethods
    obtain ⟨s, location, body⟩ := n
    cases hs : s.isMethod with
    | true =>
      obtain ⟨name, parameters, returnType, rfl⟩ : ∃ name parameters returnType,
          s = .method name parameters returnType := by
        cases s with
        | method name parameters returnType => exact ⟨name, parameters, returnType, rfl⟩
        | _ => cases hs
      have hinner := (nodes_refines options body hbody).1
      refine Ends.bind (Ends.bind_modify (method_wrote (e := Emitter.note _ e) hinner hstream hgroups
        name parameters returnType location)) fun _ e1 h1 => ?_
      obtain ⟨head, inside, pieces, after, hhead, hpieces, hcontext, hstream1, hgroups1, hheader1, hcode1⟩ := h1
      refine (ih hrest hstream1 hgroups1).weaken fun _ e2 h2 => ?_
      obtain ⟨header, definitions, hprogram, hstream2, hgroups2, hheader2, hcode2⟩ := h2
      refine ⟨.line (head ++ ";") :: header, .braces head pieces :: definitions, ?_, hstream2,
        hgroups2, ?_, by rw [hcode2, hcode1]; rfl⟩
      · rw [hcontext] at hprogram
        have hhead : signature name parameters returnType e.context = some (head, inside) := hhead
        simp [Printer.program, hhead, hpieces, hprogram]
      · rw [hheader2, hheader1, append_assoc]
        rfl
    | false =>
      refine Ends.bind (node_wrote hs hbody hstream hgroups) fun _ e1 h1 => ?_
      obtain ⟨pieces, hpieces, hstream1, hgroups1, hheader1, hcode1⟩ := h1
      refine (ih hrest hstream1 hgroups1).weaken fun _ e2 h2 => ?_
      obtain ⟨header, definitions, hprogram, hstream2, hgroups2, hheader2, hcode2⟩ := h2
      refine ⟨pieces ++ header, definitions, ?_, hstream2, hgroups2, ?_, by rw [hcode2, hcode1]⟩
      · cases s with
        | method name parameters returnType => cases hs
        | _ => simp [Printer.program, hpieces, hprogram]
      · rw [hheader2, hheader1, append_assoc, allLines_append]

theorem foldl_appendDefinition (width : Int) (definitions : List Piece) :
    definitions.foldl (appendDefinition width) [] =
      allLines width (definitions.intersperse (.line "")) := by
  have hmore : ∀ (first : Piece) (definitions : List Piece) (code : List String),
      definitions.foldl (appendDefinition width) (code ++ first.lines width) =
        code ++ allLines width ((first :: definitions).intersperse (.line "")) := by
    intro first definitions
    induction definitions generalizing first with
    | nil => simp [allLines]
    | cons second definitions ih =>
      intro code
      have hlines : (code ++ first.lines width).isEmpty = false := by
        cases first <;> simp [lines]
      have hstep : appendDefinition width (code ++ first.lines width) second =
          (code ++ first.lines width ++ [""]) ++ second.lines width := by
        rw [appendDefinition, hlines]
        rfl
      rw [foldl_cons, hstep, ih second]
      simp [allLines, lines]
  cases definitions with
  | nil => rfl
  | cons first definitions => exact hmore first definitions []

end Emission

/-- The lines of pieces: those of a block are shifted right between the lines that open and close
it, so each line stands behind the margin of the groups around it, and what is opened is closed again
at the same margin. -/
structure Piece.Laid (width : Int) (pieces : List Piece) (lines : List String) : Prop where
  shifted : lines = allLines width pieces
  indented : lines = (allMarked 0 pieces).map (PrintedLine.text width)
  placed : Placed [] (allMarked 0 pieces)
  nested : nested PrintedLine.role PrintedLine.groups [] (allMarked 0 pieces) = true

theorem Piece.laid (width : Int) (pieces : List Piece) : Laid width pieces (allLines width pieces) where
  shifted := rfl
  indented := allLines_eq width pieces
  placed := placed_marked pieces
  nested := nested_marked PrintedLine.groups (fun _ _ h => h) pieces

theorem Piece.allEvident_definitions {definitions : List Piece} (h : AllEvident definitions) :
    AllEvident (definitions.intersperse (.line "")) := by
  induction definitions with
  | nil => exact trivial
  | cons first definitions ih =>
    cases definitions with
    | nil => exact h
    | cons second definitions => exact ⟨h.1, show Text.role "" = .plain by decide, ih h.2⟩

theorem emitProgram_wrote {options : Options} {pool : TemporaryPool} {forest : List Node}
    {lines : List String} {output : String} {e : Emitter} (hmethods : Node.MethodsOutside forest)
    (h : emitProgram (Emitter.start pool lines) options forest = (.ok output, e)) :
    ∃ header definitions, program options forest (Emitter.start pool lines).context =
        some (header, definitions, e.context) ∧
      e.groups = 0 ∧ e.header = allLines options.indentWidth header ∧
      e.code = allLines options.indentWidth (definitions.intersperse (.line "")) ∧
      output = e.output options.includes := by
  have hwrote := Emission.program_wrote options (e := Emitter.start pool lines) forest hmethods rfl rfl
  have hprogram : Ends (Emission.program options forest) (Emitter.start pool lines) (fun text e' =>
      ∃ header definitions, program options forest (Emitter.start pool lines).context =
          some (header, definitions, e'.context) ∧
        e'.groups = 0 ∧ e'.header = allLines options.indentWidth header ∧
        e'.code = allLines options.indentWidth (definitions.intersperse (.line "")) ∧
        text = e'.output options.includes) fun _ _ => True := by
    refine Ends.bind hwrote fun _ e1 h1 => Ends.bind_get ?_
    obtain ⟨header, definitions, hprinter, -, hgroups, hheader, hcode⟩ := h1
    split_ifs
    · exact Ends.of_error rfl trivial
    · refine Ends.pure ⟨header, definitions, hprinter, hgroups, hheader, ?_, rfl⟩
      exact hcode.trans (Emission.foldl_appendDefinition _ _)
  unfold emitProgram at h
  split at h
  · next text e1 hrun =>
    obtain ⟨htext, rfl⟩ := Prod.mk.inj h
    obtain rfl := Except.ok.inj htext
    exact hprogram.ok hrun
  · cases h

/-- Emission is printing. Programs that are read have their methods at the top level and words for
names. Where methods stand at the top level only and the emission succeeds, both lists of lines are
those of the printer, laid out group by group, the text itself shows the nesting if the names are
words, all groups are closed in the end, and the output joins the includes, the header and the
code. -/
theorem emission_is_printing (options : Options) :
    (∀ source file tokens lines program, tokenize source file = .ok tokens →
      readProgram tokens file lines = .ok program →
      Node.MethodsOutside program.nodes ∧ ∀ s ∈ Node.statements program.nodes, s.Worded) ∧
    ∀ pool lines forest output e, Node.MethodsOutside forest →
      emitProgram (Emitter.start pool lines) options forest = (.ok output, e) →
      ∃ header definitions after,
        Printer.program options forest (Emitter.start pool lines).context = some (header, definitions, after) ∧
        Piece.Laid options.indentWidth header e.header ∧
        Piece.Laid options.indentWidth (definitions.intersperse (.line "")) e.code ∧
        ((∀ s ∈ Node.statements forest, s.Worded) →
          nested Text.role Text.indentation [] e.header = true ∧
          nested Text.role Text.indentation [] e.code = true) ∧
        e.groups = 0 ∧
        output = "\n".intercalate (options.includes.map (fun name => "#include <" ++ name ++ ">") ++
          [""] ++ e.header ++ [""] ++ e.code) := by
  refine ⟨fun _ _ _ _ _ htokens hread => readProgram_statements htokens hread, ?_⟩
  intro pool lines forest output e hmethods hrun
  obtain ⟨header, definitions, hprinter, hgroups, hheader, hcode, houtput⟩ :=
    emitProgram_wrote hmethods hrun
  refine ⟨header, definitions, e.context, hprinter, ?_, ?_, fun hworded => ?_, hgroups, houtput⟩
  · rw [hheader]
    exact laid _ header
  · rw [hcode]
    exact laid _ _
  · have hbuiltin : (Emitter.start pool lines).context.types.Worded := by
      change TypeTable.Worded TypeTable.builtin
      simp [TypeTable.Worded, TypeTable.builtin]
      decide
    obtain ⟨hfirst, hsecond⟩ := Printer.program_shows options forest hworded hbuiltin hprinter
    rw [hheader, hcode]
    exact ⟨nested_lines _ header hfirst,
      nested_lines _ _ (allEvident_definitions hsecond)⟩

/-- A method with a branch: the lines of the branch stand two groups deep. -/
theorem emission_is_printing_of_branch :
    ∃ forest output e, Node.MethodsOutside forest ∧ (∀ s ∈ Node.statements forest, s.Worded) ∧
      emitProgram (Emitter.start ⟨8, [], Nat.zero_le 8⟩ []) {} forest = (.ok output, e) ∧
      e.code = ["void m(void) \x7b", "    if(1) \x7b", "        //TODO:", "    \x7d", "\x7d"] ∧
      nested Text.role Text.indentation [] e.code = true := by
  let forest : List Node := [.mk (.method "m" [] none) none
    [.mk (.ifThen [⟨.number, "1", ⟨"f", 2, 6⟩⟩]) none [.mk .pass none []]]]
  have hmethods : Node.MethodsOutside forest := by
    simp [Node.MethodsOutside, forest, Node.body, Node.statements, Node.listing, Node.entries,
      Statement.isMethod]
  have hworded : ∀ s ∈ Node.statements forest, s.Worded := by
    simp [forest, Node.statements, Node.listing, Node.entries, Statement.Worded]
  obtain ⟨output, e, hrun, hcode⟩ : ∃ output e,
      emitProgram (Emitter.start ⟨8, [], Nat.zero_le 8⟩ []) {} forest = (.ok output, e) ∧ e.code =
        ["void m(void) \x7b", "    if(1) \x7b", "        //TODO:", "    \x7d", "\x7d"] :=
    ⟨_, _, rfl, by decide +kernel⟩
  obtain ⟨-, -, -, -, -, -, hnested, -⟩ := (emission_is_printing {}).2 _ _ forest output e hmethods hrun
  exact ⟨forest, output, e, hmethods, hworded, hrun, hcode, (hnested hworded).2⟩

end CirOutline
