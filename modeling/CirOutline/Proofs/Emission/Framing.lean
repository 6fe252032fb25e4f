import CirOutline.Proofs.Emission.Stepwise
import CirOutline.Proofs.Emission.Visiting

/-!
What emissions keep. All emissions are made of the same few steps: lines are written, what is known
changes, groups are opened and closed, counters are held, and methods are defined. A relation between
states that holds over these steps holds over every emission. It may be weaker where an emission stops,
since then nothing is put back.
-/

namespace CirOutline

variable {inner : Emission Unit}

namespace Emission

/-- The state after the step is related to the one before it: by `value` if the step gives a value, by
`halt` if it stops. -/
def Keeps {α : Type} (value halt : Emitter → Emitter → Prop) (m : Emission α) : Prop :=
  ∀ e : Emitter, Ends m e (fun _ e' => value e e') fun _ e' => halt e e'

/-- The steps that emissions are made of keep the relations. -/
structure Framed (value halt : Emitter → Emitter → Prop) : Prop where
  refl : ∀ e, value e e
  trans : ∀ {e e' e'' : Emitter}, value e e' → value e' e'' → value e e''
  stop : ∀ e, halt e e
  later : ∀ {e e' e'' : Emitter}, value e e' → halt e' e'' → halt e e''
  note : ∀ (e : Emitter) entries, value e (e.note entries)
  write : ∀ (e : Emitter) line, value e (e.write line)
  groups : ∀ (e : Emitter) groups, value e { e with groups := groups }
  learn : ∀ (e : Emitter) context, context.pool = e.context.pool → value e { e with context := context }
  counter : ∀ (place : Option Location) (step : String → Emission Unit),
    (∀ counter, Keeps value halt (step counter)) → Keeps value halt (withCounter place step)
  definition : ∀ inner rest : Emission Unit, Keeps value halt inner → Keeps value halt rest →
    Keeps value halt (defining inner rest)

section

variable {value halt : Emitter → Emitter → Prop} (hframe : Framed value halt)
include hframe

theorem Framed.bind {α β : Type} {m : Emission α} {f : α → Emission β} (hm : Keeps value halt m)
    (hf : ∀ a, Keeps value halt (f a)) : Keeps value halt (m >>= f) := by
  intro e
  refine Ends.bind (hm e) fun a e' he' => ?_
  exact (hf a e').mono (fun _ _ h => hframe.trans he' h) fun _ _ h => hframe.later he' h

theorem emit_framed (options : Options) (line : String) : Keeps value halt (emit options line) := by
  intro e
  apply Ends.bind_get
  unfold Emitter.emit
  split_ifs
  · exact Ends.of_ok rfl (hframe.write e line)
  · cases Emitter.margin options.indentWidth e.groups with
    | ok spaces => exact Ends.of_ok rfl (hframe.write e _)
    | error b => exact Ends.throw (hframe.stop e)

theorem grouped_framed (h : Keeps value halt inner) : Keeps value halt (grouped inner) := by
  have hstart : Keeps value halt startGroup := fun e => Ends.modify (hframe.groups e _)
  have hend : Keeps value halt endGroup := by
    intro e
    apply Ends.bind_get
    split_ifs
    · exact Ends.throw (hframe.stop e)
    · exact Ends.of_ok rfl (hframe.groups e _)
  exact hframe.bind hstart fun _ => hframe.bind h fun _ => hend

theorem stepwise_framed (options : Options) :
    Stepwise options False True (fun _ => True) fun _ {_} m _ => Keeps value halt m where
  pure _ e := Ends.pure (hframe.refl e)
  bind := hframe.bind
  look h e := Ends.bind_get (h e e.journal e.lines False.elim e)
  fail _ _ e := Ends.of_error rfl (hframe.stop e)
  failBare _ _ e := Ends.throw (hframe.stop e)
  breakOff _ _ e := Ends.throw (hframe.stop e)
  note entries _ _ e := Ends.modify (hframe.note e entries)
  learn f hpool e := Ends.modify (hframe.learn e (f e.context) (hpool e.context).1)
  emit line _ := emit_framed hframe options line
  grouped := grouped_framed hframe
  counter _ h := hframe.counter _ _ h
  definition := hframe.definition _ _

/-! ### Trees -/

theorem visit_framed (options : Options) (how : Option Mode) (n : Node) {inner : Option Mode → Emission Unit}
    (h : ∀ how', Keeps value halt (inner how')) : Keeps value halt (visit options how n inner) := by
  have hr := stepwise_framed hframe options
  unfold visit
  split
  · exact hr.modeOption_self (k := 0) trivial (h none) _ _
  · exact hr.noted_self (k := 0) trivial n.location False.elim (fun _ => h none) fun _ mode => h (some mode)

theorem block_framed (options : Options) (ns : List Node) :
    ∀ how : Option Mode, Keeps value halt (block options how ns) := by
  induction ns using Node.forest_induction with
  | nil =>
    intro how
    rw [block_nil]
    exact fun e => Ends.pure (hframe.refl e)
  | cons s location body ns ihbody ihns =>
    intro how
    rw [block_cons]
    exact hframe.bind (visit_framed hframe options how (.mk s location body) ihbody) fun _ => ihns how

end

end Emission

end CirOutline
