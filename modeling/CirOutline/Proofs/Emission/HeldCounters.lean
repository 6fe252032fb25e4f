import CirOutline.Proofs.Emission.Framing
import CirOutline.Proofs.Emission.Sight

/-!
Counters are held only while a loop with a count runs. Whatever tree is emitted and however its
emission ends, the counters in use at the end are those from before. So an emission that stops comes
to a node that is to blame for the stop, and stops whenever it comes to a node that does.
-/

namespace CirOutline

open TemporaryPool

variable {e e' : Emitter} {how : Option Mode} {n : Node} {stop : Stop}

/-- A small enough pool keeps its size and the counters in use. -/
def Emitter.SameCounters (e e' : Emitter) : Prop :=
  e.context.pool.capacity ≤ capacityBound →
    SameUse e.context.pool e'.context.pool

theorem Emitter.SameCounters.trans {e'' : Emitter} (h : e.SameCounters e') (h' : e'.SameCounters e'') :
    e.SameCounters e'' := fun he => (h he).trans (h' ((h he).1.le.trans he))

namespace Emission

variable {options : Options}

/-- However the step ends, the counters in use are those from before it. -/
def Steady {α : Type} (m : Emission α) : Prop :=
  ∀ e : Emitter, e.context.pool.capacity ≤ capacityBound →
    Ends m e (fun _ e' => SameUse e.context.pool e'.context.pool)
      fun _ e' => SameUse e.context.pool e'.context.pool

theorem steady_iff {α : Type} {m : Emission α} : Steady m ↔ Keeps Emitter.SameCounters Emitter.SameCounters m := by
  constructor
  · intro h e
    cases hrun : m e with
    | ok a e' => exact Ends.of_ok hrun fun he => (h e he).ok hrun
    | error stop e' => exact Ends.of_error hrun fun he => (h e he).error hrun
  · intro h e he
    exact (h e).mono (fun _ _ hsame => hsame he) fun _ _ hsame => hsame he

theorem withCounter_steady {step : String → Emission Unit} (place : Option Location)
    (h : ∀ counter, Steady (step counter)) : Steady (withCounter place step) := by
  intro e he
  cases htaken : e.context.pool.acquire? with
  | none => exact Ends.of_error (withCounter_none htaken place step) (.refl _)
  | some taken =>
    obtain ⟨counter, pool⟩ := taken
    obtain ⟨_, -, -, -, hsize, -⟩ := acquire?_spec htaken
    have hstep := h counter (e.withPool pool) (hsize.le.trans he)
    rw [Ends, withCounter_eq htaken]
    cases hrun : step counter (e.withPool pool) with
    | ok _ e2 =>
      obtain ⟨later, hlater, huse⟩ := release_taken he htaken (hstep.ok hrun)
      simp only [giveBack, handOver, hlater]
      exact huse
    | error stop e2 =>
      obtain ⟨later, hlater, huse⟩ := release_taken he htaken (hstep.error hrun)
      simp only [giveBack, handOver, hlater]
      exact huse

theorem framed_counters : Framed Emitter.SameCounters Emitter.SameCounters where
  refl _ _ := .refl _
  trans := .trans
  stop _ _ := .refl _
  later := .trans
  note _ _ _ := .refl _
  write e line _ := (e.still_write line).sameUse
  groups _ _ _ := .refl _
  learn _ _ hpool _ := hpool ▸ .refl _
  counter place step h := steady_iff.mp (withCounter_steady place fun counter => steady_iff.mpr (h counter))
  definition inner rest hinner hrest := by
    intro e
    refine Ends.bind_get (Ends.bind_modify (Ends.bind (hinner _) fun _ e2 h2 => Ends.bind_modify ?_))
    exact (hrest _).mono (fun _ _ h => Emitter.SameCounters.trans h2 h) fun _ _ h => Emitter.SameCounters.trans h2 h

/-! ### Trees -/

theorem visit_steady (options : Options) (how : Option Mode) (n : Node) {inner : Option Mode → Emission Unit}
    (h : ∀ how', Steady (inner how')) : Steady (visit options how n inner) :=
  steady_iff.mpr (visit_framed framed_counters options how n fun how' => steady_iff.mp (h how'))

theorem block_steady (options : Options) (ns : List Node) (how : Option Mode) : Steady (block options how ns) :=
  steady_iff.mpr (block_framed framed_counters options ns how)

section

variable (he : e.context.pool.capacity ≤ capacityBound)
include he

theorem visit_keeps (hrun : visit options how n (fun how' => block options how' n.body) e = .ok () e') :
    SameUse e.context.pool e'.context.pool :=
  (visit_steady options how n (block_steady options n.body) e he).ok hrun

theorem visit_enters (hrun : visit options how n (fun how' => block options how' n.body) e = .ok () e') :
    Settled n e e' ∨ ∃ how' inside e2, Enters (visit options how n) e how' inside ∧ Entered n e how' inside ∧
      block options how' n.body inside = .ok () e2 ∧ e'.sight = e.sight.leaving n.statement e2.sight := by
  have hopens := visit_opens options how n he
  refine ((hopens.outcome fun how' inside stop e2 hentered herror =>
    (block_steady options n.body how' inside (hentered.capacity.le.trans he)).error herror).ok hrun).imp_right ?_
  rintro ⟨how', inside, e2, henters, hblock, hafter⟩
  exact ⟨how', inside, e2, henters, hopens.before henters, hblock, hafter⟩

end

theorem exists_reached_of_stop (ns : List Node) : ∀ {how : Option Mode} {e e' : Emitter}
    (parent : List Nat) (index : Nat) (past : List Passed),
    e.context.pool.capacity ≤ capacityBound → block options how ns e = .error stop e' →
    ∃ v, Reached options how e past parent index ns v ∧ v.node.Blamed v.emitter.context stop := by
  induction ns using Node.forest_induction with
  | nil =>
    intro how e e' parent index past _ hrun
    rw [block_nil] at hrun
    cases hrun
  | cons s location body ns ihbody ihns =>
    intro how e e' parent index past he hrun
    rw [block_cons] at hrun
    cases hvisit : visit options how (.mk s location body)
        (fun how' => block options how' (Node.mk s location body).body) e with
    | ok _ e1 =>
      rw [bind_of_ok hvisit] at hrun
      have hcapacity : e1.context.pool.capacity ≤ capacityBound :=
        (visit_keeps he hvisit).1.le.trans he
      obtain ⟨v, hreached, hv⟩ := ihns parent (index + 1) _ hcapacity hrun
      exact ⟨v, .next hvisit hreached, hv⟩
    | error cause e1 =>
      rw [bind_of_error hvisit] at hrun
      obtain ⟨rfl, -⟩ : cause = stop ∧ e1 = e' := by simpa using hrun
      have hopens := visit_opens options (e := e) how (.mk s location body) he
      have hinside : ∀ {how' : Option Mode} {inside : Emitter}, Entered (.mk s location body) e how' inside →
          inside.context.pool.capacity ≤ capacityBound := fun hentered =>
        hentered.capacity.le.trans he
      rcases (hopens.outcome fun how' inside stop e2 hentered herror =>
        (block_steady options body how' inside (hinside hentered)).error herror).error hvisit with
        hown | ⟨how', inside, e2, henters, hblock⟩
      · exact ⟨_, .here, hown⟩
      · obtain ⟨v, hreached, hv⟩ := ihbody (index :: parent) 0 (⟨index :: parent, s⟩ :: past)
          (hinside (hopens.before henters)) hblock
        exact ⟨v, .inside henters hreached, hv⟩

section

variable {past : List Passed} {parent : List Nat} {index : Nat} {ns : List Node} {v : Visit}
  (h : Reached options how e past parent index ns v)
include h

theorem Reached.error {e2 : Emitter} (he : e.context.pool.capacity ≤ capacityBound)
    (hstop : visit options v.how v.node (fun how' => block options how' v.node.body) v.emitter =
      .error stop e2) : ∃ e', block options how ns e = .error stop e' := by
  induction h with
  | here => exact ⟨e2, by rw [block_cons, bind_of_error hstop]⟩
  | @next how e e' past parent index n ns v hpassed _ ih =>
    obtain ⟨e'', hrest⟩ := ih ((visit_keeps he hpassed).1.le.trans he) hstop
    exact ⟨e'', by rw [block_cons, bind_of_ok hpassed, hrest]⟩
  | @inside how how' e inside past parent index n ns v henters _ ih =>
    have hopens := visit_opens options how n he
    have hinside := (hopens.before henters).capacity.le.trans he
    obtain ⟨e', hblock⟩ := ih hinside hstop
    obtain ⟨e'', hvisit⟩ := hopens.stops henters (fun how' => block options how' n.body) hblock
      ((block_steady options n.body how' inside hinside).error hblock)
    exact ⟨e'', by rw [block_cons, bind_of_error hvisit]⟩

theorem Reached.ok (he : e.context.pool.capacity ≤ capacityBound) (hrun : block options how ns e = .ok () e') :
    ∃ e2, visit options v.how v.node (fun how' => block options how' v.node.body) v.emitter = .ok () e2 := by
  cases hvisit : visit options v.how v.node (fun how' => block options how' v.node.body) v.emitter with
  | ok _ e2 => exact ⟨e2, rfl⟩
  | error stop e2 =>
    obtain ⟨e'', hblock⟩ := h.error he hvisit
    rw [hblock] at hrun
    cases hrun

end

end Emission

end CirOutline
