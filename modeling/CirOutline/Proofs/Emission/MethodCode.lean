import CirOutline.Proofs.Emission.Foretold

/-!
Code that runs stands in methods. While the code is being written the header does not grow, whatever is
emitted and however the emission ends. Inside a method the code is being written, also after a method
inside that method, and outside methods a statement that runs is refused. So no line of such a statement
is in the header, and a forest that is emitted has such statements in methods only.
-/

namespace CirOutline

open List Passed Node

variable {e e' e'' : Emitter} {v : Visit}

/-- Lines have been added to the code only. -/
structure Emitter.AddsCode (e e' : Emitter) : Prop where
  header : e'.header = e.header
  code : e.code <+: e'.code

namespace Emitter

theorem AddsCode.refl (e : Emitter) : e.AddsCode e := ⟨rfl, prefix_rfl⟩

theorem AddsCode.trans (h : e.AddsCode e') (h' : e'.AddsCode e'') : e.AddsCode e'' :=
  ⟨h'.header.trans h.header, h.code.trans h'.code⟩

/-- If the code is being written, lines have been added to it only. -/
def SparesHeader (e e' : Emitter) : Prop := e.stream = .code → e.AddsCode e'

/-- The same list is being written as before, and no method has been opened. -/
structure Returns (e e' : Emitter) : Prop where
  stream : e'.stream = e.stream
  inMethod : e'.inMethod = true → e.inMethod = true
  spares : e.SparesHeader e'

theorem Returns.refl (e : Emitter) : e.Returns e := ⟨rfl, id, fun _ => .refl e⟩

theorem SparesHeader.later (h : e.Returns e') (h' : e'.SparesHeader e'') :
    e.SparesHeader e'' := fun hcode => (h.spares hcode).trans (h' (h.stream.trans hcode))

theorem Returns.trans (h : e.Returns e') (h' : e'.Returns e'') : e.Returns e'' :=
  ⟨h'.stream.trans h.stream, fun hinside => h.inMethod (h'.inMethod hinside), .later h h'.spares⟩

theorem returns_write (e : Emitter) (line : String) : e.Returns (e.write line) := by
  unfold write
  split
  · next hheader =>
    refine ⟨rfl, id, fun hcode => ?_⟩
    rw [hheader] at hcode
    cases hcode
  · exact ⟨rfl, id, fun _ => ⟨rfl, prefix_append _ _⟩⟩

theorem addsCode_withPool (e : Emitter) (pool : TemporaryPool) : e.AddsCode (e.withPool pool) :=
  ⟨rfl, prefix_rfl⟩

theorem returns_withPool (e : Emitter) (pool : TemporaryPool) : e.Returns (e.withPool pool) :=
  ⟨rfl, id, fun _ => e.addsCode_withPool pool⟩

end Emitter

namespace Emission

variable {options : Options}

/-! ### While the code is being written -/

theorem release_ends (counter : String) (e : Emitter) :
    Ends (release counter) e (fun _ e' => ∃ pool, e' = e.withPool pool) fun _ e' => e' = e := by
  apply Ends.bind_get
  cases e.context.pool.release counter with
  | ok pool => exact Ends.modify ⟨pool, rfl⟩
  | error problem =>
    cases problem with
    | refused fault | broken b => exact Ends.throw rfl

theorem withCounter_returns {step : String → Emission Unit} (place : Option Location)
    (h : ∀ counter, Keeps Emitter.Returns Emitter.SparesHeader (step counter)) :
    Keeps Emitter.Returns Emitter.SparesHeader (withCounter place step) := by
  intro e
  cases htaken : e.context.pool.acquire? with
  | none => exact Ends.of_error (withCounter_none htaken place step) fun _ => .refl e
  | some taken =>
    obtain ⟨counter, pool⟩ := taken
    have hstep := h counter (e.withPool pool)
    have hpool := e.returns_withPool pool
    rw [Ends, withCounter_eq htaken]
    cases hrun : step counter (e.withPool pool) with
    | ok _ e2 =>
      have h2 := hpool.trans (hstep.ok hrun)
      refine (release_ends counter e2).mono ?_ ?_
      · rintro _ e3 ⟨later, rfl⟩
        exact h2.trans (e2.returns_withPool later)
      · rintro _ e3 rfl
        exact h2.spares
    | error stop e2 =>
      have h2 := Emitter.SparesHeader.later hpool (hstep.error hrun)
      have hrelease := release_ends counter e2
      simp only [giveBack, handOver]
      cases hback : release counter e2 with
      | ok _ e3 =>
        obtain ⟨later, rfl⟩ := hrelease.ok hback
        exact fun hcode => (h2 hcode).trans (e2.addsCode_withPool later)
      | error other e3 =>
        obtain rfl := hrelease.error hback
        exact h2

theorem framed_lists : Framed Emitter.Returns Emitter.SparesHeader where
  refl := .refl
  trans := .trans
  stop e _ := .refl e
  later := .later
  note _ _ := ⟨rfl, id, fun _ => ⟨rfl, prefix_rfl⟩⟩
  write := Emitter.returns_write
  groups _ _ := ⟨rfl, id, fun _ => ⟨rfl, prefix_rfl⟩⟩
  learn _ _ _ := ⟨rfl, id, fun _ => ⟨rfl, prefix_rfl⟩⟩
  counter place _ h := withCounter_returns place h
  definition inner rest hinner hrest := by
    intro e
    have hstart : e.AddsCode { e with
        stream := .code
        code := if e.code.isEmpty then e.code else e.code ++ [""]
        inMethod := true } := by
      refine ⟨rfl, ?_⟩
      dsimp only
      split_ifs
      · exact prefix_rfl
      · exact prefix_append _ _
    -- inside the definition the code is being written, whichever list was written before
    have hdefined := (hinner _).mono (fun _ e2 h2 => hstart.trans (h2.spares rfl))
      fun _ e2 h2 (_ : e.stream = .code) => hstart.trans (h2 rfl)
    refine Ends.bind_get (Ends.bind_modify (Ends.bind hdefined fun _ e2 h2 => Ends.bind_modify ?_))
    have hback : e.Returns { e2 with stream := e.stream, inMethod := false } :=
      ⟨rfl, fun hinside => absurd hinside Bool.false_ne_true, fun _ => ⟨h2.header, h2.code⟩⟩
    exact (hrest _).mono (fun _ _ h => hback.trans h) fun _ _ h => .later hback h

/-! ### Inside and outside methods -/

/-- At a position of a block: what is taken for a method is one, and in a method the code is being
written. -/
structure Aligned (past : List Passed) (parent : List Nat) (index : Nat) (e : Emitter) : Prop where
  inMethod : e.inMethod = true → InMethod past parent
  stream : InMethod past parent → e.stream = .code
  fresh : Fresh past parent index
  capacity : e.context.pool.capacity ≤ TemporaryPool.capacityBound

variable {past : List Passed} {parent : List Nat} {index : Nat} {how : Option Mode} {n : Node}

theorem Aligned.next (h : Aligned past parent index e)
    (hrun : visit options how n (fun how' => block options how' n.body) e = .ok () e') :
    Aligned ((n.walk (index :: parent)).reverse ++ past) parent (index + 1) e' := by
  have hreturns := (visit_framed framed_lists options how n (block_framed framed_lists options n.body) e).ok hrun
  refine ⟨fun hinside => ?_, fun hinside => ?_, h.fresh.next n, (visit_keeps h.capacity hrun).1.le.trans h.capacity⟩
  · obtain ⟨m, hm, hmethod, hpath⟩ := h.inMethod (hreturns.inMethod hinside)
    exact ⟨m, mem_append_right _ hm, hmethod, hpath⟩
  · exact hreturns.stream.trans (h.stream (inMethod_after hinside))

theorem Aligned.inside (h : Aligned past parent index e) {inside : Emitter} (hentered : Entered n e how inside) :
    Aligned (⟨index :: parent, n.statement⟩ :: past) (index :: parent) 0 inside := by
  have hinMethod : inside.inMethod = (n.statement.isMethod || e.inMethod) :=
    (congrArg Sight.inMethod hentered.sight).trans (Sight.inMethod_entering n.statement e.sight)
  refine ⟨fun hinside => ?_, fun hinside => ?_, h.fresh.inside n.statement, hentered.capacity.le.trans h.capacity⟩
  · rw [hinMethod, Bool.or_eq_true] at hinside
    rcases hinside with hmethod | hinside
    · exact ⟨_, mem_cons_self, hmethod, suffix_rfl⟩
    · obtain ⟨m, hm, hmethod, hpath⟩ := h.inMethod hinside
      exact ⟨m, mem_cons_of_mem _ hm, hmethod, hpath.trans (suffix_cons index parent)⟩
  · rw [hentered.stream]
    split_ifs with hmethod
    · rfl
    · exact h.stream ((h.fresh.inMethod_inside (by simpa using hmethod)).mp hinside)

theorem Reached.aligned {ns : List Node} (h : Reached options how e past parent index ns v)
    (haligned : Aligned past parent index e) : Aligned v.past v.parent v.index v.emitter := by
  induction h with
  | here => exact haligned
  | next hpassed _ ih => exact ih (haligned.next hpassed)
  | @inside how how' e inside past parent index n ns v henters _ ih =>
    exact ih (haligned.inside ((visit_opens options how n haligned.capacity).before henters))

theorem visit_refused (hruns : n.statement.isExecutable e.context.scope = true) (houtside : e.inMethod = false)
    (inner : Option Mode → Emission Unit) : ∃ action entries, visit options how n inner e =
      .error (.diagnosed (.quoting e.lines (.topLevelStatement action) n.location)) (e.note entries) := by
  obtain ⟨s, place, body⟩ := n
  have hnoted : ∃ action entries, noted options s place body (inner none) (fun mode => inner (some mode)) e =
      .error (.diagnosed (.quoting e.lines (.topLevelStatement action) place)) (e.note entries) := by
    unfold noted
    split
    · cases hruns
    · obtain ⟨action, hstop⟩ := statement_refused options (e := e.note
        [⟨.emission, .debug, "Generating " ++ (Node.mk s place body).tag⟩]) hruns houtside place body (inner none)
        fun mode => inner (some mode)
      exact ⟨action, _, hstop⟩
  cases how with
  | none => exact hnoted
  | some mode =>
    cases s with
    | option choice => cases hruns
    | _ => exact hnoted

/-! ### Visits -/

/-- From this state the emission adds lines to the code only, whether it stops or not. -/
def WritesCode (m : Emission Unit) (e : Emitter) : Prop :=
  Ends m e (fun _ e' => e.AddsCode e') fun _ e' => e.AddsCode e'

theorem Keeps.writesCode {m : Emission Unit} (h : Keeps Emitter.Returns Emitter.SparesHeader m)
    (hstream : e.stream = .code) : WritesCode m e :=
  (h e).mono (fun _ _ hkept => hkept.spares hstream) fun _ _ hkept => hkept hstream

/-- The lines of a statement that runs, of whatever stands in a method, and of the block of a method go
to the code. -/
structure Visit.KeepsApart (options : Options) (v : Visit) : Prop where
  runs : v.node.statement.isExecutable v.emitter.context.scope = true → WritesCode (v.run options) v.emitter
  inMethod : InMethod v.past v.parent → WritesCode (v.run options) v.emitter
  body : v.node.statement.isMethod = true → ∀ how inside,
    Enters (visit options v.how v.node) v.emitter how inside →
    inside.stream = .code ∧ WritesCode (block options how v.node.body) inside

section

variable (h : Aligned v.past v.parent v.index v.emitter)
include h

theorem Aligned.refused (hruns : v.node.statement.isExecutable v.emitter.context.scope = true)
    (houtside : ¬ InMethod v.past v.parent) : ∃ action entries, v.run options v.emitter = .error
      (.diagnosed (.quoting v.emitter.lines (.topLevelStatement action) v.node.location)) (v.emitter.note entries) := by
  apply visit_refused hruns
  rw [Bool.eq_false_iff]
  exact fun hinside => houtside (h.inMethod hinside)

theorem Aligned.keepsApart : v.KeepsApart options := by
  have hframed := visit_framed framed_lists options v.how v.node (block_framed framed_lists options v.node.body)
  have hinMethod : InMethod v.past v.parent → WritesCode (v.run options) v.emitter := fun hinside =>
    hframed.writesCode (h.stream hinside)
  refine ⟨fun hruns => ?_, hinMethod, fun hmethod how inside henters => ?_⟩
  · by_cases hinside : InMethod v.past v.parent
    · exact hinMethod hinside
    · obtain ⟨action, entries, hstop⟩ := h.refused hruns hinside
      exact Ends.of_error hstop ⟨rfl, prefix_rfl⟩
  · have hstream := ((visit_opens options v.how v.node h.capacity).before henters).stream
    rw [if_pos hmethod] at hstream
    exact ⟨hstream, (block_framed framed_lists options v.node.body how).writesCode hstream⟩

end

end Emission

theorem Statement.isExecutable_of_isField {s : Statement} (h : s.isField = true) (scope : Scope) :
    s.isExecutable scope = false := by
  cases s with
  | pass | declaration => rfl
  | _ => cases h

/-- The lines of statements that run, and all lines of the blocks of methods, are added to the code only,
wherever methods stand and however the emission ends. A statement that runs and stands in no method ends
the emission. So in a program that is emitted each call, branch, loop, return and assignment to a mutable
variable stands in a method. -/
theorem running_code_stands_in_methods {options : Options} {lines : List String} {start : Emitter} {forest : List Node}
    (htrim : Node.AllTrim forest) (hstart : options.emitter lines = .ok start) :
    (∀ v, Emission.Reached options none start [] [] 0 forest v → v.KeepsApart options ∧
      (v.node.statement.isExecutable v.emitter.context.scope = true → ¬ Passed.InMethod v.past v.parent →
        ∃ action shown, (emitProgram start options forest).1 =
          .error (.diagnosed ⟨.topLevelStatement action, v.node.location, shown⟩))) ∧
    ∀ output, (emitProgram start options forest).1 = .ok output →
      ∀ x ∈ Passed.steps [] (Node.walkAll [] 0 forest), (∃ scope, x.2.statement.isExecutable scope = true) →
        ∃ v, Emission.Reached options none start [] [] 0 forest v ∧ v.step = x ∧
          (x.2.statement.isExecutable v.emitter.context.scope = true → Passed.InMethod x.1 x.2.path.tail) := by
  obtain ⟨pool, rfl, hsound, -⟩ := Options.emitter_start hstart
  have hempty : ¬ InMethod [] [] := by
    rintro ⟨m, hm, -⟩
    cases hm
  have haligned : Emission.Aligned [] [] 0 (Emitter.start pool lines) :=
    ⟨fun hinside => absurd hinside Bool.false_ne_true, fun hinside => absurd hinside hempty,
      fun f hf => absurd hf not_mem_nil, hsound.capacity⟩
  have hrefused : ∀ v, Emission.Reached options none (Emitter.start pool lines) [] [] 0 forest v →
      v.node.statement.isExecutable v.emitter.context.scope = true → ¬ InMethod v.past v.parent →
      ∃ action shown, (emitProgram (Emitter.start pool lines) options forest).1 =
        .error (.diagnosed ⟨.topLevelStatement action, v.node.location, shown⟩) := by
    intro v hv hruns houtside
    obtain ⟨action, entries, hstop⟩ := (hv.aligned haligned).refused hruns houtside
    obtain ⟨e, hrun⟩ := hv.error hsound.capacity hstop
    exact ⟨action, _, congrArg Prod.fst ((emitProgram_ends options (Emitter.start pool lines) forest).error hrun)⟩
  refine ⟨fun v hv => ⟨(hv.aligned haligned).keepsApart, hrefused v hv⟩, ?_⟩
  rintro output houtput x hx ⟨scope, hscope⟩
  have hrun := emitProgram_block (Prod.ext houtput rfl)
  rcases Emission.block_visited forest htrim hsound.capacity hrun x hx with ⟨-, hfield⟩ | ⟨v, hv, rfl⟩
  · rw [Statement.isExecutable_of_isField hfield] at hscope
    cases hscope
  · refine ⟨v, hv, rfl, fun hruns => ?_⟩
    by_contra houtside
    obtain ⟨action, shown, hstop⟩ := hrefused v hv hruns houtside
    rw [hstop] at houtput
    cases houtput

def nestedMethods : List Node :=
  [.mk (.setMode "Speed" ["Fast"]) none [],
    .mk (.choose "Speed") none [.mk (.option "Fast") none
      [.mk (.method "outer" [⟨"Int", "n", []⟩] none) none
        [.mk (.assignment "n" [⟨.number, "1", ⟨"methods", 5, 13⟩⟩]) none [],
          .mk (.method "inner" [] none) none [.mk (.returns []) none []]]]]]

theorem running_code_stands_in_methods_of_nested : ∃ start output past,
    ({} : Options).emitter = .ok start ∧ Node.AllTrim nestedMethods ∧
    (emitProgram start {} nestedMethods).1 = .ok output ∧
    Passed.InMethod past [1, 0, 0, 1] ∧
    ∃ v, Emission.Reached {} none start [] [] 0 nestedMethods v ∧ v.step = (past, ⟨[0, 1, 0, 0, 1], .returns []⟩) ∧
      v.KeepsApart {} := by
  have hoks : (({} : Options).emitter.toOption.bind fun start =>
      (emitProgram start {} nestedMethods).1.toOption).isSome = true := by
    decide +kernel
  obtain ⟨output, houtput⟩ := Option.isSome_iff_exists.mp hoks
  obtain ⟨start, hstart, houtput⟩ := Option.bind_eq_some_iff.mp houtput
  have hstart := eq_ok_of_toOption hstart
  have houtput := eq_ok_of_toOption houtput
  have htrim : AllTrim nestedMethods := by
    simp [nestedMethods, AllTrim, Trim, Statement.opensBlock]
  obtain ⟨hvisits, hmethods⟩ := running_code_stands_in_methods htrim hstart
  obtain ⟨past, hpast⟩ : ∃ past, (past, ⟨[0, 1, 0, 0, 1], .returns []⟩) ∈
      steps [] (walkAll [] 0 nestedMethods) := ⟨_, mem_of_getLast? rfl⟩
  obtain ⟨v, hv, hstep, hinside⟩ := hmethods output houtput _ hpast ⟨.empty, rfl⟩
  exact ⟨start, output, past, hstart, htrim, houtput, hinside rfl, v, hv, hstep, (hvisits v hv).1⟩

end CirOutline
