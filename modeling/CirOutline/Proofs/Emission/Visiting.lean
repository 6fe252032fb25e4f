import CirOutline.Proofs.Emission.Printing
import CirOutline.Proofs.Emission.Safety

/-!
The visits of an emission. An emission comes to a node in some state, after the statements that it
has passed, and may enter the block of the node in another state. `Reached` says which nodes an
emission comes to and how. It follows the running definitions: a node is passed by its own emission,
and a block is entered in the one state in which the emission of its header runs it.
-/

namespace CirOutline

open List Node TemporaryPool

variable {e e' inside : Emitter} {how : Option Mode} {inner : Option Mode → Emission Unit}
  {step : (Option Mode → Emission Unit) → Emission Unit} {stop : Stop}

/-- A statement that an emission has passed, with the path to it: the positions among siblings, the
innermost first. -/
structure Passed where
  path : List Nat
  statement : Statement

namespace Node

mutual
/-- The statements of a tree in the order in which they are passed. -/
def walk (path : List Nat) : Node → List Passed
  | mk s _ body => ⟨path, s⟩ :: walkAll path 0 body

def walkAll (parent : List Nat) (index : Nat) : List Node → List Passed
  | [] => []
  | n :: ns => n.walk (index :: parent) ++ walkAll parent (index + 1) ns
end

theorem exists_of_mem_walkAll (ns : List Node) : ∀ (parent : List Nat) (index : Nat),
    ∀ f ∈ walkAll parent index ns, ∃ j, index ≤ j ∧ j < index + ns.length ∧ (j :: parent) <:+ f.path := by
  induction ns using forest_induction with
  | nil => simp [walkAll]
  | cons s location body ns ihbody ihns =>
    intro parent index f hf
    rw [walkAll, walk, cons_append, mem_cons, mem_append] at hf
    rw [length_cons]
    rcases hf with rfl | hf | hf
    · exact ⟨index, Nat.le_refl index, by omega, suffix_rfl⟩
    · obtain ⟨j, -, -, hpath⟩ := ihbody _ _ f hf
      exact ⟨index, Nat.le_refl index, by omega, (suffix_cons j _).trans hpath⟩
    · obtain ⟨j, hfirst, hlast, hpath⟩ := ihns _ _ f hf
      exact ⟨j, by omega, by omega, hpath⟩

theorem exists_suffix_of_walkAll (path : List Nat) (body : List Node) :
    ∀ f ∈ (walkAll path 0 body).reverse, ∃ j, (j :: path) <:+ f.path := by
  intro f hf
  obtain ⟨j, -, -, hj⟩ := exists_of_mem_walkAll body _ _ f (mem_reverse.mp hf)
  exact ⟨j, hj⟩

theorem reverse_walk {s : Statement} {place : Option Location} {body : List Node} {path : List Nat}
    {past : List Passed} :
    ((mk s place body).walk path).reverse ++ past = (walkAll path 0 body).reverse ++ ⟨path, s⟩ :: past := by
  simp [walk]

end Node

namespace Emission

def block (options : Options) : Option Mode → List Node → Emission Unit
  | none => nodes options
  | some mode => modeOptions options mode

def visit (options : Options) (how : Option Mode) (n : Node) (inner : Option Mode → Emission Unit) :
    Emission Unit :=
  match how, n.statement with
  | some mode, .option choice => modeOption options mode choice n.location (inner none)
  | _, _ => noted options n.statement n.location n.body (inner none) fun mode => inner (some mode)

theorem block_nil (options : Options) (how : Option Mode) : block options how [] = pure () := by
  cases how with
  | none => rw [block, nodes]
  | some mode => rw [block, modeOptions]

theorem block_cons (options : Options) (how : Option Mode) (n : Node) (ns : List Node) :
    block options how (n :: ns) = (do
      visit options how n fun how' => block options how' n.body
      block options how ns) := by
  obtain ⟨s, location, body⟩ := n
  cases how with
  | none => rw [block, nodes, node]; rfl
  | some mode =>
    change modeOptions options mode (mk s location body :: ns) = _
    unfold modeOptions
    cases s <;> rfl

/-- From `e` the step runs a block once, in the state `inside`: the block alone decides how the step
goes on, and the step stops when the block stops at once. -/
def Enters (step : (Option Mode → Emission Unit) → Emission Unit) (e : Emitter) (how : Option Mode)
    (inside : Emitter) : Prop :=
  ∃ after recover, (∀ inner, step inner e = handOver after recover (inner how inside)) ∧
    ∀ stop, ∃ e', recover stop inside = .error stop e'

theorem not_stops_always (result : EStateM.Result Stop Emitter Unit) :
    ¬ ∀ stop, ∃ e', result = .error stop e' := by
  intro h
  obtain ⟨e, he⟩ := h (.diagnosed ⟨.mixedIndentation, none, none⟩)
  obtain ⟨e', he'⟩ := h (.diagnosed ⟨.stalled, none, none⟩)
  cases he.symm.trans he'

theorem not_enters_of_const {result : EStateM.Result Stop Emitter Unit}
    (hstep : ∀ inner, step inner e = result) (how : Option Mode) (inside : Emitter) :
    ¬ Enters step e how inside := by
  rintro ⟨after, recover, hover, hstops⟩
  refine not_stops_always result fun stop => ?_
  obtain ⟨e', he'⟩ := hstops stop
  refine ⟨e', ?_⟩
  rw [← hstep fun _ => throw stop, hover]
  exact he'

theorem Enters.unique {inside' : Emitter} {how' : Option Mode} {after' : Emission Unit}
    {recover' : Stop → Emission Unit} (h : Enters step e how inside)
    (hover' : ∀ inner, step inner e = handOver after' recover' (inner how' inside')) :
    how = how' ∧ inside = inside' := by
  classical
  obtain ⟨after, recover, hover, hstops⟩ := h
  by_contra hne
  -- a block that stops in `inside` for one reason and in every other state in the same way
  refine not_stops_always (handOver after' recover' (.error (.diagnosed ⟨.stalled, none, none⟩) inside')) fun stop => ?_
  obtain ⟨e', he'⟩ := hstops stop
  let inner : Option Mode → Emission Unit := fun h s =>
    if h = how ∧ s = inside then .error stop inside else .error (.diagnosed ⟨.stalled, none, none⟩) s
  have hthere : inner how' inside' = .error (.diagnosed ⟨.stalled, none, none⟩) inside' :=
    if_neg fun h => hne ⟨h.1.symm, h.2.symm⟩
  have hhere : inner how inside = .error stop inside := if_pos ⟨rfl, rfl⟩
  refine ⟨e', ?_⟩
  rw [← hthere, ← hover', hover, hhere]
  exact he'

/-- Where an emission stands: the statements passed, the latest first, the path of the block and the
position in it, the way in which the block is emitted, the node, and the state. -/
structure Visit where
  past : List Passed
  parent : List Nat
  index : Nat
  how : Option Mode
  node : Node
  emitter : Emitter

/-- The emission of the nodes of a block comes to a node, there or in a block below. -/
inductive Reached (options : Options) : (how : Option Mode) → (e : Emitter) → (past : List Passed) →
    (parent : List Nat) → (index : Nat) → (nodes : List Node) → (v : Visit) → Prop
  | here {how e past parent index n ns} :
      Reached options how e past parent index (n :: ns) ⟨past, parent, index, how, n, e⟩
  | next {how e e' past parent index n ns v}
      (hpassed : visit options how n (fun how' => block options how' n.body) e = .ok () e')
      (hrest : Reached options how e' ((n.walk (index :: parent)).reverse ++ past) parent (index + 1)
        ns v) :
      Reached options how e past parent index (n :: ns) v
  | inside {how how' e inside past parent index n ns v} (henters : Enters (visit options how n) e how' inside)
      (hblock : Reached options how' inside (⟨index :: parent, n.statement⟩ :: past) (index :: parent) 0
        n.body v) :
      Reached options how e past parent index (n :: ns) v

theorem Reached.walk {options : Options} {past : List Passed} {parent : List Nat} {index : Nat}
    {ns : List Node} {v : Visit} (h : Reached options how e past parent index ns v) :
    ∃ rest, past.reverse ++ walkAll parent index ns =
      v.past.reverse ++ v.node.walk (v.index :: v.parent) ++ rest := by
  induction h with
  | @here how e past parent index n ns =>
    exact ⟨walkAll parent (index + 1) ns, by rw [walkAll, append_assoc]⟩
  | @next how e e' past parent index n ns v _ _ ih =>
    obtain ⟨rest, hrest⟩ := ih
    refine ⟨rest, ?_⟩
    rw [← hrest, walkAll]
    simp
  | @inside how how' e inside past parent index n ns v _ _ ih =>
    obtain ⟨s, location, body⟩ := n
    obtain ⟨rest, hrest⟩ := ih
    refine ⟨rest ++ walkAll parent (index + 1) ns, ?_⟩
    rw [← append_assoc, ← hrest, Node.walkAll, Node.walk]
    simp [Node.statement, Node.body]

/-! ### Outcomes of a step with a block -/

/-- From `e` the step ends without its block, with `Leaf` or with a stop of its own; or it runs the
block once, in a state with `Before`, and goes on to one with `After`. A stop of the block that keeps
the counters in use is passed on, with the counters in use from before the step. -/
def Opens (step : (Option Mode → Emission Unit) → Emission Unit) (e : Emitter) (Leaf : Emitter → Prop)
    (Before : Option Mode → Emitter → Prop) (After : Emitter → Emitter → Prop) (Own : Stop → Prop) :
    Prop :=
  (∃ m : Emission Unit, (∀ inner, step inner e = m e) ∧
      Ends m e (fun _ e' => Leaf e') fun stop _ => Own stop) ∨
    ∃ how inside after recover,
      (∀ inner, step inner e = handOver after recover (inner how inside)) ∧ Before how inside ∧
      (∀ e2, Ends after e2 (fun _ e' => After e2 e') fun stop _ => Own stop) ∧
      ∀ stop e2, SameUse inside.context.pool e2.context.pool →
        ∃ e3, recover stop e2 = .error stop e3 ∧
          SameUse e.context.pool e3.context.pool

namespace Opens

variable {α : Type} {Leaf Leaf' : Emitter → Prop} {Before Before' : Option Mode → Emitter → Prop}
  {After After' : Emitter → Emitter → Prop} {Own : Stop → Prop}

theorem leaf {m : Emission Unit} (h : Ends m e (fun _ e' => Leaf e') fun stop _ => Own stop) :
    Opens (fun _ => m) e Leaf Before After Own :=
  .inl ⟨m, fun _ => rfl, h⟩

theorem block (how : Option Mode) (hbefore : Before how e) (hafter : ∀ e2, After e2 e2) :
    Opens (fun inner => inner how) e Leaf Before After Own := by
  refine .inr ⟨how, e, pure (), throw, fun inner => ?_, hbefore, fun e2 => Ends.pure (hafter e2), ?_⟩
  · change inner how e = handOver (pure ()) throw (inner how e)
    cases inner how e <;> rfl
  · exact fun stop e2 hsame => ⟨e2, rfl, hsame⟩

theorem first {m : Emission α} {rest : α → (Option Mode → Emission Unit) → Emission Unit}
    {Q : α → Emitter → Prop} (hm : Ends m e Q fun stop _ => Own stop)
    (hpool : ∀ a e', Q a e' → SameUse e.context.pool e'.context.pool)
    (hrest : ∀ a e', Q a e' → Opens (rest a) e' Leaf Before After Own) :
    Opens (fun inner => m >>= fun a => rest a inner) e Leaf Before After Own := by
  cases hrun : m e with
  | error stop e' =>
    refine .inl ⟨fun _ => .error stop e', fun inner => bind_of_error hrun, ?_⟩
    exact Ends.of_error rfl (hm.error hrun)
  | ok a e' =>
    have hstep : ∀ inner, (m >>= fun a => rest a inner) e = rest a inner e' := fun inner =>
      bind_of_ok hrun
    have hsame := hpool a e' (hm.ok hrun)
    rcases hrest a e' (hm.ok hrun) with ⟨m', hconst, hends⟩ |
      ⟨how, inside, after, recover, hover, hbefore, hends, hstops⟩
    · exact .inl ⟨fun _ => m' e', fun inner => (hstep inner).trans (hconst inner), hends⟩
    · refine .inr ⟨how, inside, after, recover, fun inner => (hstep inner).trans (hover inner), hbefore,
        hends, fun stop e2 hsame2 => ?_⟩
      obtain ⟨e3, he3, hsame3⟩ := hstops stop e2 hsame2
      exact ⟨e3, he3, hsame.trans hsame3⟩

theorem andThen {last : Emission Unit} (h : Opens step e (fun _ => False) Before After' Own)
    (hafter : ∀ e2 e', After' e2 e' → Ends last e' (fun _ e'' => After e2 e'') fun stop _ => Own stop) :
    Opens (fun inner => step inner >>= fun _ => last) e (fun _ => False) Before After Own := by
  rcases h with ⟨m, hconst, hends⟩ | ⟨how, inside, after, recover, hover, hbefore, hends, hstops⟩
  · refine .inl ⟨m >>= fun _ => last, fun inner => ?_, Ends.bind hends fun _ _ h => h.elim⟩
    change EStateM.bind (step inner) (fun _ => last) e = EStateM.bind m (fun _ => last) e
    rw [EStateM.bind, hconst]
    rfl
  · refine .inr ⟨how, inside, after >>= fun _ => last, fun stop => recover stop >>= fun _ => last,
      fun inner => ?_, hbefore, fun e2 => Ends.bind (hends e2) fun _ e' => hafter e2 e', ?_⟩
    · change EStateM.bind (step inner) (fun _ => last) e = _
      rw [EStateM.bind, hover]
      cases inner how inside <;> rfl
    · intro stop e2 hsame
      obtain ⟨e3, he3, hsame3⟩ := hstops stop e2 hsame
      exact ⟨e3, bind_of_error he3, hsame3⟩

theorem mono (h : Opens step e Leaf' Before' After' Own) (hleaf : ∀ e', Leaf' e' → Leaf e')
    (hbefore : ∀ how e', Before' how e' → Before how e')
    (hafter : ∀ e2 e', After' e2 e' → After e2 e') : Opens step e Leaf Before After Own := by
  rcases h with ⟨m, hconst, hends⟩ | ⟨how, inside, after, recover, hover, hinside, hends, hstops⟩
  · exact .inl ⟨m, hconst, hends.weaken fun _ => hleaf⟩
  · exact .inr ⟨how, inside, after, recover, hover, hbefore how inside hinside,
      fun e2 => (hends e2).weaken fun _ => hafter e2, hstops⟩

section

variable (h : Opens step e Leaf Before After Own)
include h

theorem before (henters : Enters step e how inside) :
    Before how inside := by
  rcases h with ⟨m, hconst, -⟩ | ⟨how', inside', after, recover, hover, hbefore, -, -⟩
  · exact absurd henters (not_enters_of_const hconst how inside)
  · obtain ⟨rfl, rfl⟩ := henters.unique hover
    exact hbefore

theorem stops {e2 : Emitter} (henters : Enters step e how inside)
    (inner : Option Mode → Emission Unit) (hinner : inner how inside = .error stop e2)
    (hsame : SameUse inside.context.pool e2.context.pool) :
    ∃ e3, step inner e = .error stop e3 := by
  rcases h with ⟨m, hconst, -⟩ | ⟨how', inside', after, recover, hover, -, -, hstops⟩
  · exact absurd henters (not_enters_of_const hconst how inside)
  · obtain ⟨rfl, rfl⟩ := henters.unique hover
    obtain ⟨e3, he3, -⟩ := hstops stop e2 hsame
    exact ⟨e3, by rw [hover, hinner]; exact he3⟩

/-- What a run of the step gives or stops with is its own, or comes from the run of its block. -/
theorem outcome (hinner : ∀ how inside stop e2, Before how inside → inner how inside = .error stop e2 →
      SameUse inside.context.pool e2.context.pool) :
    Ends (step inner) e
      (fun _ e' => Leaf e' ∨ ∃ how inside e2, Enters step e how inside ∧ inner how inside = .ok () e2 ∧ After e2 e')
      fun stop _ => Own stop ∨ ∃ how inside e2, Enters step e how inside ∧ inner how inside = .error stop e2 := by
  rcases h with ⟨m, hconst, hends⟩ | ⟨how, inside, after, recover, hover, hbefore, hends, hstops⟩
  · rw [Ends, hconst]
    exact hends.mono (fun _ _ => .inl) fun _ _ => .inl
  · have henters : Enters step e how inside :=
      ⟨after, recover, hover, fun stop => (hstops stop inside (.refl _)).imp fun _ h => h.1⟩
    cases hblock : inner how inside with
    | ok _ e2 =>
      rw [Ends, hover, hblock]
      exact (hends e2).mono (fun _ _ h => .inr ⟨how, inside, e2, henters, hblock, h⟩) fun _ _ => .inl
    | error stop e2 =>
      obtain ⟨e3, he3, -⟩ := hstops stop e2 (hinner how inside stop e2 hbefore hblock)
      have hstep : step inner e = .error stop e3 := by rw [hover, hblock]; exact he3
      exact .of_error hstep (.inr ⟨how, inside, e2, henters, hblock⟩)

end

end Opens

end Emission

end CirOutline
