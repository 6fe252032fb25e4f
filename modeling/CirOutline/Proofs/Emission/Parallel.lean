import CirOutline.Compilation
import CirOutline.Proofs.Emission.Stepwise
import CirOutline.Proofs.Paired

/-!
Emission of forests that say the same. Two emissions from states that differ in the journal and in the
lines of the source write the same lines, or stop for the same fault, and the states after them differ
in the same way. Where the forests are equal, so are the journals and the places of the faults.
-/

namespace CirOutline

variable {inner inner' : Emission Unit} {s s' : Statement} {body body' ns ns' : List Node} {options : Options}
  {exact : Prop} {lines lines' : List String}

/-- Two states with their own lines of the source, equal up to the journal; exactly the same states have
equal journals. -/
def Emitter.Same (exact : Prop) (lines lines' : List String) (e e' : Emitter) : Prop :=
  e.lines = lines ∧ ∃ journal, (exact → journal = e.journal) ∧ e' = e.reporting journal lines'

theorem Emitter.Same.journal {e e' : Emitter} (h : e.Same True lines lines' e') : e'.journal = e.journal := by
  obtain ⟨-, journal, hsame, rfl⟩ := h
  exact hsame trivial

theorem Emitter.Same.refl (e : Emitter) : e.Same exact e.lines e.lines e := ⟨rfl, e.journal, fun _ => rfl, rfl⟩

theorem Emitter.emit_reporting (e : Emitter) (journal : Journal) (width : Int) (line : String) :
    (e.reporting journal lines).emit width line =
      (e.emit width line).map fun d => d.reporting journal lines := by
  have hwrite : ∀ line, (e.reporting journal lines).write line = (e.write line).reporting journal lines := by
    intro line
    unfold Emitter.write Emitter.reporting
    cases e.stream <;> rfl
  unfold Emitter.emit
  rw [hwrite, e.reporting_groups]
  split_ifs
  · rfl
  · cases margin width e.groups with
    | ok spaces => exact congrArg Except.ok (hwrite (spaces ++ line))
    | error b => rfl

theorem Emitter.emit_frame {e d : Emitter} {width : Int} {line : String} (h : e.emit width line = .ok d) :
    d.lines = e.lines ∧ d.journal = e.journal := by
  have hwrite : ∀ line, (e.write line).lines = e.lines ∧ (e.write line).journal = e.journal := by
    intro line
    unfold Emitter.write
    cases e.stream <;> exact ⟨rfl, rfl⟩
  unfold Emitter.emit at h
  split_ifs at h
  · cases h
    exact hwrite line
  · cases hmargin : margin width e.groups with
    | ok spaces =>
      rw [hmargin] at h
      cases h
      exact hwrite _
    | error b =>
      rw [hmargin] at h
      cases h

namespace Emission

/-! ### Emissions side by side -/

/-- From states that are equal up to the journal and the lines two steps give the same value or stop
alike, and leave such states. -/
abbrev Parallel (exact : Prop) (lines lines' : List String) {α : Type} (m m' : Emission α) : Prop :=
  Matched (Emitter.Same exact lines lines') (Stop.Matches exact lines lines') m m'

theorem Parallel.bind_get {β : Type} {f f' : Emitter → Emission β}
    (h : ∀ e journal, Parallel exact lines lines' (f e) (f' (e.reporting journal lines'))) :
    Parallel exact lines lines' (get >>= f) (get >>= f') := by
  refine Matched.bind_get ?_
  rintro e - ⟨-, journal, -, rfl⟩
  exact h e journal

theorem Parallel.modify {g : Emitter → Emitter} (hlines : ∀ e : Emitter, (g e).lines = e.lines)
    (hjournal : ∀ e : Emitter, (g e).journal = e.journal)
    (h : ∀ e journal, g (e.reporting journal lines') = (g e).reporting journal lines') :
    Parallel exact lines lines' (modify g) (modify g) := by
  refine Matched.modify ?_
  rintro e - ⟨he, journal, hsame, rfl⟩
  exact ⟨(hlines e).trans he, journal, fun hx => (hsame hx).trans (hjournal e).symm, h e journal⟩

section
variable {α : Type} {place place' : Option Location}

theorem fail_parallel (fault : Fault) (h : exact → place = place') :
    Parallel exact lines lines' (fail fault place : Emission α) (fail fault place') := by
  refine Matched.bind_get ?_
  rintro e - ⟨rfl, journal, -, rfl⟩
  exact .throw (.quoting fault h)

theorem failBare_parallel (fault : Fault) (h : exact → place = place') :
    Parallel exact lines lines' (failBare fault place : Emission α) (failBare fault place') :=
  .throw (.bare fault h)

theorem breakOff_parallel (b : Breakdown) : Parallel exact lines lines' (breakOff b : Emission α) (breakOff b) :=
  .throw (.broken b)

/-! ### Steps -/

theorem learn_parallel (f : Context → Context) : Parallel exact lines lines' (learn f) (learn f) :=
  .modify (fun _ => rfl) (fun _ => rfl) fun _ _ => rfl

theorem entries_parallel (entries entries' : Journal) (h : exact → entries = entries') :
    Parallel exact lines lines' (modify (Emitter.note entries)) (modify (Emitter.note entries')) := by
  refine Matched.modify ?_
  rintro e - ⟨he, journal, hsame, rfl⟩
  exact ⟨he, journal ++ entries', fun hx => by rw [hsame hx, ← h hx]; rfl, rfl⟩

theorem emit_parallel (options : Options) (line : String) :
    Parallel exact lines lines' (emit options line) (emit options line) := by
  rintro e - ⟨he, journal, hsame, rfl⟩
  refine Paired.bind_get ?_
  rw [Emitter.emit_reporting]
  cases hemit : e.emit options.indentWidth line with
  | ok d =>
    obtain ⟨hlines, hjournal⟩ := Emitter.emit_frame hemit
    exact Paired.of_ok rfl rfl ⟨rfl, hlines.trans he, journal, fun hx => (hsame hx).trans hjournal.symm, rfl⟩
  | error b => exact breakOff_parallel b e _ ⟨he, journal, hsame, rfl⟩

theorem startGroup_parallel : Parallel exact lines lines' startGroup startGroup :=
  .modify (fun _ => rfl) (fun _ => rfl) fun _ _ => rfl

theorem endGroup_parallel : Parallel exact lines lines' endGroup endGroup := by
  rintro e - ⟨he, journal, hsame, rfl⟩
  refine Paired.bind_get ?_
  rw [e.reporting_groups]
  split_ifs
  · exact failBare_parallel .noOpenGroup (fun _ => rfl) e _ ⟨he, journal, hsame, rfl⟩
  · exact Paired.of_ok rfl rfl ⟨rfl, he, journal, hsame, rfl⟩

theorem grouped_parallel (h : Parallel exact lines lines' inner inner') :
    Parallel exact lines lines' (grouped inner) (grouped inner') :=
  startGroup_parallel.andThen (h.andThen endGroup_parallel)

theorem release_parallel (counter : String) : Parallel exact lines lines' (release counter) (release counter) := by
  refine Parallel.bind_get fun e journal => ?_
  rw [e.reporting_context]
  cases e.context.pool.release counter with
  | ok pool => exact learn_parallel _
  | error problem =>
    cases problem with
    | refused fault => exact failBare_parallel fault fun _ => rfl
    | broken b => exact breakOff_parallel b

theorem withCounter_parallel {inner inner' : String → Emission Unit} (hplace : exact → place = place')
    (h : ∀ counter, Parallel exact lines lines' (inner counter) (inner' counter)) :
    Parallel exact lines lines' (withCounter place inner) (withCounter place' inner') := by
  refine Parallel.bind_get fun e journal => ?_
  simp only [Emitter.reporting_context]
  cases e.context.pool.acquire? with
  | none => exact failBare_parallel _ hplace
  | some taken =>
    obtain ⟨counter, rest⟩ := taken
    refine (learn_parallel _).andThen fun d d' hd => ?_
    -- the counter is given back on both sides, whatever happened
    rcases (h counter d d' hd).results with
      ⟨_, d1, _, d1', hok, hok', -, hd1⟩ | ⟨stop, d1, stop', d1', hstop, hstop', hcause, hd1⟩
    · have hrelease := release_parallel counter d1 d1' hd1
      unfold Paired at hrelease ⊢
      simpa only [hok, hok'] using hrelease
    · unfold Paired
      simp only [hstop, hstop']
      rcases (release_parallel counter d1 d1' hd1).results with
        ⟨_, d2, _, d2', hok, hok', -, hd2⟩ | ⟨other, d2, other', d2', hother, hother', hcause2, hd2⟩
      · simp only [hok, hok']
        exact ⟨hcause, hd2⟩
      · simp only [hother, hother']
        exact ⟨hcause2, hd2⟩

theorem stepwise_parallel (options : Options) (exact : Prop) (lines lines' : List String) :
    Stepwise options False exact (fun _ => True) fun _ => Parallel exact lines lines' where
  pure := .pure
  bind hm hf := hm.bind hf
  look h := .bind_get fun e journal => h e journal lines' False.elim
  fail h _ := fail_parallel _ h
  failBare h _ := failBare_parallel _ h
  breakOff b _ := breakOff_parallel b
  note := entries_parallel
  learn f _ := learn_parallel f
  emit line _ := emit_parallel options line
  grouped := grouped_parallel
  counter := withCounter_parallel
  definition hinner hrest := by
    refine Parallel.bind_get fun e journal => ?_
    refine .andThen (Parallel.modify (fun _ => rfl) (fun _ => rfl) fun _ _ => rfl) (hinner.andThen ?_)
    exact .andThen (Parallel.modify (fun _ => rfl) (fun _ => rfl) fun _ _ => rfl) hrest

end

/-! ### Trees -/

theorem cons_parallel (place place' : Option Location) (hs : s.Alike s')
    (hexact : exact → Node.mk s place body = .mk s' place' body') (hbody : ∀ name, s = .structType name →
      List.Forall₂ (fun n n' : Node => n.statement.Alike n'.statement) body body')
    (hinner : Parallel exact lines lines' (nodes options body) (nodes options body') ∧
      ∀ mode, Parallel exact lines lines' (modeOptions options mode body) (modeOptions options mode body'))
    (hrest : Parallel exact lines lines' (nodes options ns) (nodes options ns') ∧
      ∀ mode, Parallel exact lines lines' (modeOptions options mode ns) (modeOptions options mode ns')) :
    Parallel exact lines lines' (nodes options (.mk s place body :: ns)) (nodes options (.mk s' place' body' :: ns')) ∧
      ∀ mode, Parallel exact lines lines' (modeOptions options mode (.mk s place body :: ns))
        (modeOptions options mode (.mk s' place' body' :: ns')) := by
  have hr := stepwise_parallel options exact lines lines'
  have hnode := hr.noted_related (k := 0) trivial hs hexact False.elim hbody (fun _ => hinner.1) fun _ => hinner.2
  refine ⟨hnode.andThen hrest.1, fun mode => ?_⟩
  unfold modeOptions
  cases hs with
  | same s _ =>
    cases s with
    | option choice =>
      have hplace : exact → place = place' := fun h => (Node.mk.inj (hexact h)).2.1
      exact (hr.modeOption_related (k := 0) hplace trivial hinner.1 mode choice).andThen (hrest.2 mode)
    | _ => exact hnode.andThen (hrest.2 mode)
  | _ => exact hnode.andThen (hrest.2 mode)

theorem nodes_parallel (h : Node.AllAlike ns ns') (hexact : exact → ns = ns') :
    Parallel exact lines lines' (nodes options ns) (nodes options ns') ∧
      ∀ mode, Parallel exact lines lines' (modeOptions options mode ns) (modeOptions options mode ns') := by
  induction h with
  | nil => exact ⟨.pure (), fun _ => .pure ()⟩
  | cons hs hbody hns ihbody ihns =>
    have hnode := fun h => (List.cons.inj (hexact h)).1
    exact cons_parallel _ _ hs hnode (fun _ _ => hbody.statements) (ihbody fun h => (Node.mk.inj (hnode h)).2.2)
      (ihns fun h => (List.cons.inj (hexact h)).2)

theorem program_of_nodes (h : Parallel exact lines lines' (nodes options ns) (nodes options ns')) :
    Parallel exact lines lines' (program options ns) (program options ns') := by
  refine h.andThen (Parallel.bind_get fun e journal => ?_)
  rw [e.reporting_groups]
  split_ifs
  · exact failBare_parallel _ fun _ => rfl
  · exact .pure _

theorem program_parallel (options : Options) (h : Node.AllAlike ns ns') (hexact : exact → ns = ns') :
    Parallel exact lines lines' (program options ns) (program options ns') :=
  program_of_nodes (nodes_parallel h hexact).1

end Emission

/-! ### Programs -/

theorem Options.emitter_same (options : Options) (exact : Prop) (lines lines' : List String) :
    (∃ b, options.emitter lines = .error b ∧ options.emitter lines' = .error b) ∨
      ∃ start start', options.emitter lines = .ok start ∧ options.emitter lines' = .ok start' ∧
        start.Same exact lines lines' start' := by
  unfold Options.emitter
  cases TemporaryPool.create options.poolSize with
  | error b => exact .inl ⟨b, rfl, rfl⟩
  | ok pool => exact .inr ⟨_, _, rfl, rfl, rfl, [], fun _ => rfl, rfl⟩

/-- Programs with emissions side by side are emitted with the same C text, or for both the emission
stops alike. -/
theorem emitProgram_parallel {start start' : Emitter} {forest forest' : List Node}
    (hstart : start.Same exact lines lines' start')
    (h : Emission.Parallel exact lines lines' (Emission.program options forest) (Emission.program options forest')) :
    (∃ output e e', emitProgram start options forest = (.ok output, e) ∧
      emitProgram start' options forest' = (.ok output, e') ∧ e.Same exact lines lines' e') ∨
    ∃ stop stop' e e', emitProgram start options forest = (.error stop, e) ∧
      emitProgram start' options forest' = (.error stop', e') ∧ stop.Matches exact lines lines' stop' ∧
      e.Same exact lines lines' e' := by
  unfold emitProgram
  rcases (h start start' hstart).results with
    ⟨output, e, output', e', hok, hok', rfl, hsame⟩ | ⟨stop, e, stop', e', hstop, hstop', hmatch, hsame⟩
  · simp only [hok, hok']
    exact .inl ⟨output, e, e', rfl, rfl, hsame⟩
  · simp only [hstop, hstop']
    exact .inr ⟨stop, stop', e, e', rfl, rfl, hmatch, hsame⟩

end CirOutline
