import CirOutline.Compilation
import CirOutline.Proofs.Emission.Stepwise
import CirOutline.Proofs.Layout.Listing
import CirOutline.Proofs.TemporaryPool

/-!
Emission of trees that were read stops only for causes in the source, or because a margin is too
long for the machine. Every step closes the groups it opens and gives back the counters it takes,
the latter also when it stops, and keeps every variable in sight named.
-/

namespace CirOutline

open List TemporaryPool Node

variable {choices : Mode → Emission Unit} {fault : Fault} {floor depth : Nat} {types : List String}
  {unit : Option Nat} {place : Option Location} {inner : Emission Unit} {body : List Node}
  {reader : LineReader} {b : Binding} {scope : Scope} {s : Statement}

/-- What an emission relies on: named variables, and a pool whose names are short numerals. -/
structure Emitter.Sound (e : Emitter) : Prop where
  named : e.context.scope.Named
  capacity : e.context.pool.capacity ≤ capacityBound

/-- What a step keeps. -/
structure Emitter.Kept (e e' : Emitter) : Prop where
  groups : e'.groups = e.groups
  pool : SameUse e.context.pool e'.context.pool
  named : e.context.scope.Named → e'.context.scope.Named

namespace Emitter.Kept

variable {e e' e'' : Emitter}

theorem refl (e : Emitter) : e.Kept e := ⟨rfl, .refl _, id⟩

theorem trans (h : e.Kept e') (h' : e'.Kept e'') : e.Kept e'' :=
  ⟨h'.groups.trans h.groups, h.pool.trans h'.pool, h'.named ∘ h.named⟩

theorem sound (h : e.Kept e') (he : e.Sound) : e'.Sound :=
  ⟨h.named he.named, h.pool.1 ▸ he.capacity⟩

end Emitter.Kept

/-- A stop for a cause in the source, or because the margin of at most `depth` groups has no room,
for a depth with `D`. -/
def Stop.Expected (options : Options) (D : Nat → Prop) : Stop → Prop
  | .diagnosed p => p.fault.ofSource = true
  | .broken b => ∃ depth groups, D depth ∧ groups ≤ depth ∧
      Allocation.cells 1 (options.indentWidth * (groups : Nat)) = .error b

def Emitter.withPool (e : Emitter) (pool : TemporaryPool) : Emitter :=
  { e with context := { e.context with pool := pool } }

namespace Emission

/-- The step keeps what a step has to keep; it stops as expected, with no counter taken. -/
def Safe {α : Type} (options : Options) (D : Nat → Prop) (m : Emission α) (e : Emitter) : Prop :=
  Ends m e (fun _ e' => e.Kept e') fun stop e' => stop.Expected options D ∧
    SameUse e.context.pool e'.context.pool

/-- The step is safe wherever at most `depth` groups are open. -/
def SafeWithin {α : Type} (options : Options) (D : Nat → Prop) (depth : Nat) (m : Emission α) : Prop :=
  ∀ e : Emitter, e.Sound → e.groups ≤ depth → Safe options D m e

variable {α β : Type} {options : Options} {D : Nat → Prop} {e : Emitter} {counter : String}
  {pool : TemporaryPool}

namespace SafeWithin

theorem pure (a : α) : SafeWithin options D depth (Pure.pure a) := fun e _ _ => Ends.pure (.refl e)

theorem bind {m : Emission α} {f : α → Emission β} (hm : SafeWithin options D depth m)
    (hf : ∀ a, SafeWithin options D depth (f a)) : SafeWithin options D depth (m >>= f) := by
  intro e he hgroups
  refine Ends.bind (hm e he hgroups) fun a e' hkept => ?_
  have hlater := hf a e' (hkept.sound he) (hkept.groups ▸ hgroups)
  refine Ends.mono hlater (fun _ _ hnext => hkept.trans hnext) ?_
  rintro stop e'' ⟨hstop, hpool⟩
  exact ⟨hstop, hkept.pool.trans hpool⟩

theorem bind_get {f : Emitter → Emission β} (h : ∀ e : Emitter, e.Sound → SafeWithin options D depth (f e)) :
    SafeWithin options D depth (get >>= f) :=
  fun e he hgroups => Ends.bind_get (h e he e he hgroups)

theorem modify {f : Emitter → Emitter} (h : ∀ e : Emitter, e.Kept (f e)) : SafeWithin options D depth (modify f) :=
  fun e _ _ => Ends.modify (h e)

theorem fail (h : fault.ofSource = true) : SafeWithin options D depth (Emission.fail fault place : Emission α) :=
  fun _ _ _ => Ends.bind_get (Ends.throw ⟨h, .refl _⟩)

theorem failBare (h : fault.ofSource = true) :
    SafeWithin options D depth (Emission.failBare fault place : Emission α) :=
  fun _ _ _ => Ends.throw ⟨h, .refl _⟩

end SafeWithin

/-! ### Steps -/

theorem Emitter.kept_write (e : Emitter) (line : String) : e.Kept (e.write line) := by
  unfold Emitter.write
  split
  · exact ⟨rfl, .refl _, id⟩
  · exact ⟨rfl, .refl _, id⟩

theorem emit_safe (hdepth : D depth) (line : String) : SafeWithin options D depth (emit options line) := by
  intro e _ hgroups
  refine Ends.bind_get ?_
  unfold Emitter.emit
  split_ifs
  · exact Ends.of_ok rfl (Emitter.kept_write e line)
  · rw [Emitter.margin, Allocation.spaces]
    cases hcells : Allocation.cells 1 (options.indentWidth * (e.groups : Nat)) with
    | ok count => exact Ends.of_ok rfl (Emitter.kept_write e _)
    | error b => exact Ends.throw ⟨⟨depth, e.groups, hdepth, hgroups, hcells⟩, .refl _⟩

theorem grouped_safe (h : SafeWithin options D (depth + 1) inner) :
    SafeWithin options D depth (grouped inner) := by
  intro e he hgroups
  have hinner := h { e with groups := e.groups + 1 } ⟨he.named, he.capacity⟩ (Nat.succ_le_succ hgroups)
  refine Ends.bind_modify (Ends.bind hinner ?_)
  rintro _ e' ⟨hgroups, hpool, hnamed⟩
  have hopen : (e'.groups == 0) = false := by rw [hgroups]; simp
  refine Ends.bind_get ?_
  simp only [hopen, Bool.false_eq_true, if_false]
  refine Ends.of_ok rfl ⟨?_, hpool, hnamed⟩
  change e'.groups - 1 = e.groups
  rw [hgroups]
  rfl

def handOver (after : Emission Unit) (recover : Stop → Emission Unit) :
    EStateM.Result Stop Emitter Unit → EStateM.Result Stop Emitter Unit
  | .ok _ e => after e
  | .error stop e => recover stop e

def giveBack (counter : String) :
    EStateM.Result Stop Emitter Unit → EStateM.Result Stop Emitter Unit :=
  handOver (release counter) fun stop e => handOver (throw stop) throw (release counter e)

theorem withCounter_eq {counter : String} (htaken : e.context.pool.acquire? = some (counter, pool))
    (place : Option Location) (step : String → Emission Unit) :
    withCounter place step e = giveBack counter (step counter (e.withPool pool)) := by
  unfold withCounter
  rw [get_bind]
  simp only [htaken]
  refine (bind_of_ok (show learn (fun context => { context with pool }) e =
    .ok () (e.withPool pool) from rfl)).trans ?_
  cases step counter (e.withPool pool) with
  | ok _ e2 => rfl
  | error stop e2 =>
    simp only [giveBack, handOver]
    cases release counter e2 <;> rfl

theorem withCounter_none (htaken : e.context.pool.acquire? = none) (place : Option Location)
    (step : String → Emission Unit) :
    withCounter place step e = failBare (.poolExhausted e.context.pool.capacity) place e := by
  unfold withCounter
  rw [get_bind]
  simp only [htaken]

theorem release_taken {e' : Emitter} (hcapacity : e.context.pool.capacity ≤ capacityBound)
    (htaken : e.context.pool.acquire? = some (counter, pool))
    (hsame : SameUse pool e'.context.pool) :
    ∃ later, release counter e' = .ok () (e'.withPool later) ∧ SameUse e.context.pool later := by
  obtain ⟨later, hlater, huse⟩ := release_acquired hcapacity htaken hsame
  refine ⟨later, ?_, huse⟩
  rw [release, get_bind]
  simp only [hlater]
  rfl

theorem withCounter_safe {inner : String → Emission Unit}
    (h : ∀ counter, SafeWithin options D depth (inner counter)) :
    SafeWithin options D depth (withCounter place inner) := by
  intro e he hgroups
  cases htaken : e.context.pool.acquire? with
  | none => exact Ends.of_error (withCounter_none htaken place inner) ⟨rfl, .refl _⟩
  | some taken =>
    obtain ⟨counter, pool⟩ := taken
    obtain ⟨_, -, -, -, hsize, -⟩ := acquire?_spec htaken
    have hinner := h counter (e.withPool pool) ⟨he.named, hsize.le.trans he.capacity⟩ hgroups
    rw [Safe, Ends, withCounter_eq htaken]
    cases hrun : inner counter (e.withPool pool) with
    | ok _ e' =>
      have hkept := hinner.ok hrun
      obtain ⟨later, hlater, huse⟩ := release_taken he.capacity htaken hkept.pool
      simp only [giveBack, handOver, hlater]
      exact ⟨hkept.groups, huse, hkept.named⟩
    | error stop e' =>
      obtain ⟨hstop, hsame⟩ := hinner.error hrun
      obtain ⟨later, hlater, huse⟩ := release_taken he.capacity htaken hsame
      simp only [giveBack, handOver, hlater]
      exact ⟨hstop, huse⟩

/-- Emissions are safe where their lines stand at depths with `D`. -/
theorem stepwise_safe (options : Options) (D : Nat → Prop) :
    Stepwise options True True D fun depth {_} m _ => SafeWithin options D depth m where
  pure := .pure
  bind := .bind
  look h := .bind_get fun e he => h e e.journal e.lines fun _ => he.named
  fail _ h := .fail (h trivial)
  failBare _ h := .failBare (h trivial)
  breakOff _ h := absurd trivial h
  note _ _ _ := .modify fun _ => ⟨rfl, .refl _, id⟩
  learn _ h := .modify fun e => ⟨rfl, (h e.context).1 ▸ .refl _, (h e.context).2 trivial⟩
  emit line hdepth := emit_safe hdepth line
  grouped := grouped_safe
  counter _ := withCounter_safe
  definition hinner hrest := by
    refine .bind_get fun _ _ => .bind (.modify fun _ => ⟨rfl, .refl _, id⟩) fun _ => .bind hinner fun _ => ?_
    exact .bind (.modify fun _ => ⟨rfl, .refl _, id⟩) fun _ => hrest

/-! ### Trees -/

end Emission

mutual
/-- A tree as lines can say it: its statements are proper, and options are lines of mode-dependent
blocks only. -/
def Node.Readable (reader : LineReader) : Node → Prop
  | .mk s _ body => s.Proper ∧ (∀ name, s = .option name → reader = .options) ∧
      AllReadable s.bodyReader body

def Node.AllReadable (reader : LineReader) : List Node → Prop
  | [] => True
  | n :: ns => n.Readable reader ∧ AllReadable reader ns
end

namespace Node

theorem allReadable_iff {ns : List Node} : AllReadable reader ns ↔ ∀ n ∈ ns, n.Readable reader := by
  induction ns with
  | nil => simp [AllReadable]
  | cons n ns ih => rw [AllReadable, ih, forall_mem_cons]

theorem Readable.proper {n : Node} (h : n.Readable reader) : n.statement.Proper := by
  obtain ⟨s, location, body⟩ := n
  exact h.1

end Node

namespace Emission

variable {options : Options} {D : Nat → Prop} {e : Emitter}

theorem nodes_safeWithin (options : Options) (ns : List Node) :
    ∀ {depth : Nat}, (∀ entry ∈ listing depth ns, D entry.depth) →
    (AllReadable .statements ns → SafeWithin options D depth (nodes options ns)) ∧
      (AllReadable .options ns → ∀ mode, SafeWithin options D depth (modeOptions options mode ns)) := by
  have hr := stepwise_safe options D
  induction ns using forest_induction with
  | nil => exact fun _ => ⟨fun _ => .pure (), fun _ _ => .pure ()⟩
  | cons s location body ns ihbody ihns =>
    intro depth hD
    rw [listing, entries, forall_mem_append, forall_mem_cons] at hD
    obtain ⟨⟨hdepth, hinside⟩, hafter⟩ := hD
    have hdepth : D depth := hdepth
    have hinner := ihbody hinside
    have hnoted : ∀ {reader : LineReader}, (mk s location body).Readable reader →
        (∀ name, s ≠ .option name) → SafeWithin options D depth (noted options s location body
          (nodes options body) fun mode => modeOptions options mode body) := by
      rintro reader ⟨hproper, -, hbody⟩ hoption
      refine hr.noted_self hdepth location (fun _ => ⟨hproper, hoption, fun n hn =>
        (allReadable_iff.mp hbody n hn).proper⟩) ?_ ?_
      · exact fun hreader => hinner.1 (hreader ▸ hbody)
      · exact fun hreader mode e he hgroups =>
          hinner.2 (hreader ▸ hbody) mode e he (hgroups.trans (Nat.le_succ depth))
    constructor
    · rintro ⟨hnode, hns⟩
      have hoption : ∀ name, s ≠ .option name := by
        intro name hname
        cases hnode.2.1 name hname
      exact .bind (hnoted hnode hoption) fun _ => (ihns hafter).1 hns
    · rintro ⟨hnode, hns⟩ mode
      unfold modeOptions
      split
      · exact .bind (hr.modeOption_self hdepth (hinner.1 hnode.2.2) mode _) fun _ => (ihns hafter).2 hns mode
      · next hother => exact .bind (hnoted hnode hother) fun _ => (ihns hafter).2 hns mode

theorem nodes_safe (ns : List Node) (he : e.Sound) (hgroups : e.groups ≤ depth)
    (hD : ∀ entry ∈ listing depth ns, D entry.depth) :
    (AllReadable .statements ns → Safe options D (nodes options ns) e) ∧
      (AllReadable .options ns → ∀ mode, Safe options D (modeOptions options mode ns) e) := by
  obtain ⟨hstatements, hchoices⟩ := nodes_safeWithin options ns hD
  exact ⟨fun h => hstatements h e he hgroups, fun h mode => hchoices h mode e he hgroups⟩

end Emission

end CirOutline
