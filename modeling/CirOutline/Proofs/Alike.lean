import CirOutline.Expression
import CirOutline.Proofs.Layout.SourceLine
import Mathlib.Data.List.Forall2

/-!
What says the same. Tokens are alike when their class and text are, runs when their ink is alike,
and statements and trees when their runs are: places and white space do not matter. What is taken
from a run to be written as C is a function of its ink.
-/

namespace CirOutline

open List Token

variable {t u : Token} {run other : List Token} {ns ms : List Node}

/-- Tokens of one class with one text. -/
structure Token.Alike (t u : Token) : Prop where
  kind : t.kind = u.kind
  raw : t.raw = u.raw

namespace Token

theorem Alike.keyword? (h : t.Alike u) : t.keyword? = u.keyword? := by
  rw [Token.keyword?, Token.keyword?, keywordText?, keywordText?, h.kind, h.raw]

theorem Alike.endsLine (h : t.Alike u) : t.endsLine = u.endsLine := by
  rw [Token.endsLine, Token.endsLine, h.kind]

def SameInk (run other : List Token) : Prop := Forall₂ Alike (ink run) (ink other)

theorem SameInk.cons (h : t.Alike u) (hrest : SameInk run other) : SameInk (t :: run) (u :: other) := by
  by_cases hspaces : t.kind = .spaces
  · rw [SameInk, ink_cons_of_spaces hspaces, ink_cons_of_spaces (h.kind ▸ hspaces)]
    exact hrest
  · rw [SameInk, ink_cons hspaces, ink_cons (h.kind ▸ hspaces)]
    exact .cons h hrest

theorem SameInk.of_forall₂ (h : Forall₂ Alike run other) : SameInk run other := by
  induction h with
  | nil => exact .nil
  | cons hfirst _ ih => exact ih.cons hfirst

theorem Alike.forall_mem {P : Token → Prop} (h : Forall₂ Alike run other)
    (hp : ∀ t u : Token, t.Alike u → P t → P u) (hrun : ∀ t ∈ run, P t) : ∀ u ∈ other, P u := by
  induction h with
  | nil => simp
  | @cons t u run other hfirst _ ih =>
    rw [forall_mem_cons] at hrun ⊢
    exact ⟨hp t u hfirst hrun.1, ih hrun.2⟩

theorem SameInk.refl (run : List Token) : SameInk run run :=
  forall₂_same.mpr fun _ _ => ⟨rfl, rfl⟩

theorem alike_trans {as bs cs : List Token} (hab : Forall₂ Alike as bs)
    (hbc : Forall₂ Alike bs cs) : Forall₂ Alike as cs := by
  induction hab generalizing cs with
  | nil => exact hbc
  | cons hfirst _ ih =>
    obtain ⟨c, rest, hnext, hrest, rfl⟩ := forall₂_cons_left_iff.mp hbc
    exact .cons ⟨hfirst.kind.trans hnext.kind, hfirst.raw.trans hnext.raw⟩ (ih hrest)

theorem SameInk.trans {a b c : List Token} (hab : SameInk a b) (hbc : SameInk b c) : SameInk a c :=
  alike_trans hab hbc

theorem SameInk.of_runsAgree (h : runsAgree run other = true) : SameInk other run := by
  fun_induction runsAgree run other with
  | case1 => exact .nil
  | case2 t run u other ih =>
    obtain ⟨hfirst, hrest⟩ := Bool.and_eq_true_iff.mp h
    have hfirst : t.kind = u.kind ∧ t.raw = u.raw := by simpa [agrees] using hfirst
    exact (ih hrest).cons ⟨hfirst.1.symm, hfirst.2.symm⟩
  | case3 => cases h

theorem runsAgree_of_alike (h : Forall₂ Alike run other) : runsAgree other run = true := by
  induction h with
  | nil => rfl
  | cons hfirst _ ih => simp [runsAgree, agrees, hfirst.kind, hfirst.raw, ih]

theorem SameInk.startsLoop (h : SameInk run other) : Reader.startsLoop run = Reader.startsLoop other := by
  rw [Reader.startsLoop, Reader.startsLoop]
  change Forall₂ Alike (run.filter _) (other.filter _) at h
  generalize run.filter (fun t => t.kind != .spaces) = tokens at *
  generalize other.filter (fun t => t.kind != .spaces) = tokens' at *
  rcases h with _ | ⟨-, _ | ⟨hsecond, _ | ⟨-, -⟩⟩⟩
  · rfl
  · rfl
  · rfl
  · simp only [hsecond.kind]

theorem SameInk.runIsBlank (h : SameInk run other) : Token.runIsBlank run = Token.runIsBlank other := by
  have hempty : ∀ run, Token.runIsBlank run = (ink run).isEmpty := by
    intro run
    rw [Bool.eq_iff_iff, List.isEmpty_iff, ink, filter_eq_nil_iff, Token.runIsBlank, all_eq_true]
    simp
  rw [hempty, hempty, Bool.eq_iff_iff, List.isEmpty_iff, List.isEmpty_iff]
  constructor
  · intro hnil
    rw [SameInk, hnil, forall₂_nil_left_iff] at h
    exact h
  · intro hnil
    rw [SameInk, hnil, forall₂_nil_right_iff] at h
    exact h

end Token

/-! ### Expressions -/

namespace Expression

section
variable {previous other : Token}

section

variable (h : t.Alike u)
include h

theorem opens_eq : opens t = opens u := by
  rw [opens, opens, h.kind, h.raw]

theorem closes_eq : closes t = closes u := by
  rw [closes, closes, h.kind, h.raw]

theorem endsOperand_eq : endsOperand t = endsOperand u := by
  rw [endsOperand, endsOperand, h.kind, closes_eq h]

theorem spell_eq : spell t = spell u := by
  rw [spell, spell, h.kind, h.raw]

end

theorem spaced_eq (hprevious : previous.Alike other) (unary : Bool) (h : t.Alike u) :
    spaced previous unary t = spaced other unary u := by
  rw [spaced, spaced, closes_eq h, opens_eq h, h.kind, opens_eq hprevious, hprevious.kind,
    endsOperand_eq hprevious]

theorem isUnary_eq {previous other : Option Token} (hprevious : Option.Rel Alike previous other)
    (h : t.Alike u) : isUnary previous t = isUnary other u := by
  have hends : previous.any endsOperand = other.any endsOperand := by
    cases hprevious with
    | none => rfl
    | some hprevious => exact endsOperand_eq hprevious
  rw [isUnary, isUnary, h.kind, h.raw, hends]

end

def SameBefore (before other : Option (Token × Bool)) : Prop :=
  Option.Rel (fun p q => p.1.Alike q.1 ∧ p.2 = q.2) before other

theorem pieces_eq (h : Forall₂ Alike run other) :
    ∀ {before before' : Option (Token × Bool)}, SameBefore before before' →
      pieces before run = pieces before' other := by
  induction h with
  | nil => intro before before' _; rfl
  | @cons t u run other htoken hrest ih =>
    intro before before' hbefore
    have hfirst : Option.Rel Alike (before.map Prod.fst) (before'.map Prod.fst) := by
      cases hbefore with
      | none => exact .none
      | some h => exact .some h.1
    have hunary := isUnary_eq hfirst htoken
    have hafter : SameBefore (some (t, isUnary (before.map Prod.fst) t))
        (some (u, isUnary (before'.map Prod.fst) u)) := .some ⟨htoken, hunary⟩
    unfold pieces
    rw [spell_eq htoken, ih hafter]
    cases hbefore with
    | none => rfl
    | @some p q h =>
      obtain ⟨hprevious, hsame⟩ := h
      simp only [spaced_eq hprevious _ htoken, hsame]

theorem significant_of_ink (h : SameInk run other) : Forall₂ Alike (significant run) (significant other) := by
  have hink : ∀ run, significant run =
      (ink run).filter fun t => t.kind != .lineBreak && t.kind != .comment := by
    intro run
    rw [ink, filter_filter, significant]
    congr 1
    funext t
    cases t.kind <;> rfl
  rw [hink, hink]
  refine rel_filter ?_ h
  intro t u hsame
  simp only [hsame.kind]

theorem render_eq (h : SameInk run other) : render run = render other := by
  rw [render, render, pieces_eq (significant_of_ink h) .none]

theorem consFirst_alike {arguments others : List (List Token)} (h : t.Alike u)
    (hrest : Forall₂ (Forall₂ Alike) arguments others) :
    Forall₂ (Forall₂ Alike) (consFirst t arguments) (consFirst u others) := by
  cases hrest with
  | nil => exact .cons (.cons h .nil) .nil
  | cons hfirst hothers => exact .cons (.cons h hfirst) hothers

theorem splitAtCommas_alike (h : Forall₂ Alike run other) :
    ∀ depth, Forall₂ (Forall₂ Alike) (splitAtCommas depth run)
      (splitAtCommas depth other) := by
  induction h with
  | nil => exact fun _ => .cons .nil .nil
  | @cons t u run other htoken hrest ih =>
    intro depth
    rw [splitAtCommas, splitAtCommas, opens_eq htoken, closes_eq htoken, htoken.kind]
    split_ifs
    · exact consFirst_alike htoken (ih _)
    · exact consFirst_alike htoken (ih _)
    · exact .cons .nil (ih _)
    · exact consFirst_alike htoken (ih _)

theorem arguments_alike (h : SameInk run other) : Forall₂ (Forall₂ Alike) (arguments run) (arguments other) := by
  have hsignificant := significant_of_ink h
  unfold arguments
  generalize significant run = tokens at *
  generalize significant other = tokens' at *
  cases hsignificant with
  | nil => exact .nil
  | cons htoken hrest => exact splitAtCommas_alike (.cons htoken hrest) 0

end Expression

theorem Statement.iterator?_eq (h : SameInk run other) : Statement.iterator? run = Statement.iterator? other := by
  have hink : ∀ run : List Token,
      (run.find? fun t => t.kind == .word) = (ink run).find? fun t => t.kind == .word := by
    intro run
    rw [ink, find?_filter]
    congr 1
    funext t
    cases t.kind <;> rfl
  have hfind : ∀ {run other : List Token}, Forall₂ Alike run other → (run.find? fun t => t.kind == .word).map raw =
        (other.find? fun t => t.kind == .word).map raw := by
    intro run other h
    induction h with
    | nil => rfl
    | @cons t u run other htoken hrest ih =>
      rw [find?_cons, find?_cons, htoken.kind]
      split
      · rw [Option.map_some, Option.map_some, htoken.raw]
      · exact ih
  rw [iterator?, iterator?, hink run, hink other, hfind h]

/-! ### Statements and trees -/

def Statement.runs : Statement → List (List Token)
  | assignment _ run | call _ run | returns run | ifThen run | elseIf run | whileLoop run
  | repeatLoop run => [run]
  | forLoop start stop => [start, stop]
  | _ => []

/-- Statements that say the same, up to the white space and the places in their runs. -/
inductive Statement.Alike : Statement → Statement → Prop
  | same (s : Statement) (h : s.runs = []) : Alike s s
  | assignment (name : String) {run other : List Token} (h : SameInk run other) :
      Alike (.assignment name run) (.assignment name other)
  | call (name : String) {run other : List Token} (h : SameInk run other) :
      Alike (.call name run) (.call name other)
  | returns {run other : List Token} (h : SameInk run other) :
      Alike (.returns run) (.returns other)
  | ifThen {run other : List Token} (h : SameInk run other) :
      Alike (.ifThen run) (.ifThen other)
  | elseIf {run other : List Token} (h : SameInk run other) :
      Alike (.elseIf run) (.elseIf other)
  | whileLoop {run other : List Token} (h : SameInk run other) :
      Alike (.whileLoop run) (.whileLoop other)
  | forLoop {start stop start' stop'} (hstart : SameInk start start')
      (hstop : SameInk stop stop') : Alike (.forLoop start stop) (.forLoop start' stop')
  | repeatLoop {run other : List Token} (h : SameInk run other) :
      Alike (.repeatLoop run) (.repeatLoop other)

namespace Statement.Alike

theorem refl (s : Statement) : s.Alike s := by
  cases s with
  | assignment name run => exact .assignment name (.refl run)
  | call name run => exact .call name (.refl run)
  | returns run => exact .returns (.refl run)
  | ifThen run => exact .ifThen (.refl run)
  | elseIf run => exact .elseIf (.refl run)
  | whileLoop run => exact .whileLoop (.refl run)
  | forLoop start stop => exact .forLoop (.refl start) (.refl stop)
  | repeatLoop run => exact .repeatLoop (.refl run)
  | _ => exact .same _ rfl

theorem trans : ∀ {a b c : Statement}, a.Alike b → b.Alike c → a.Alike c
  | _, _, _, h, .same .. => h
  | _, _, _, .same .., h => h
  | _, _, _, .assignment name h, .assignment _ h' => .assignment name (h.trans h')
  | _, _, _, .call name h, .call _ h' => .call name (h.trans h')
  | _, _, _, .returns h, .returns h' => .returns (h.trans h')
  | _, _, _, .ifThen h, .ifThen h' => .ifThen (h.trans h')
  | _, _, _, .elseIf h, .elseIf h' => .elseIf (h.trans h')
  | _, _, _, .whileLoop h, .whileLoop h' => .whileLoop (h.trans h')
  | _, _, _, .forLoop h g, .forLoop h' g' => .forLoop (h.trans h') (g.trans g')
  | _, _, _, .repeatLoop h, .repeatLoop h' => .repeatLoop (h.trans h')

theorem of_agrees {s s' : Statement} (h : s'.agrees s = true) : s.Alike s' := by
  revert h
  fun_cases Statement.agrees s' s with
  | case1 name run other run' =>
    intro h
    obtain ⟨hname, hrun⟩ := Bool.and_eq_true_iff.mp h
    obtain rfl := eq_of_beq hname
    exact .assignment _ (.of_runsAgree hrun)
  | case2 name run other run' =>
    intro h
    obtain ⟨hname, hrun⟩ := Bool.and_eq_true_iff.mp h
    obtain rfl := eq_of_beq hname
    exact .call _ (.of_runsAgree hrun)
  | case3 => exact fun h => .returns (.of_runsAgree h)
  | case4 => exact fun h => .ifThen (.of_runsAgree h)
  | case5 => exact fun h => .elseIf (.of_runsAgree h)
  | case6 => exact fun h => .whileLoop (.of_runsAgree h)
  | case7 =>
    intro h
    obtain ⟨hstart, hstop⟩ := Bool.and_eq_true_iff.mp h
    exact .forLoop (.of_runsAgree hstart) (.of_runsAgree hstop)
  | case8 => exact fun h => .repeatLoop (.of_runsAgree h)
  | case9 =>
    intro h
    rw [of_decide_eq_true h]
    exact .refl s

end Statement.Alike

/-- Forests that say the same, up to white space and places. -/
inductive Node.AllAlike : List Node → List Node → Prop
  | nil : AllAlike [] []
  | cons {s s' location location' body body' ns ns'} (hs : s.Alike s') (hbody : AllAlike body body')
      (hns : AllAlike ns ns') : AllAlike (.mk s location body :: ns) (.mk s' location' body' :: ns')

theorem Node.kinds_of_alike {n m : Node} (h : n.statement.Alike m.statement) :
    n.isComment = m.isComment ∧ n.isConditional = m.isConditional := by
  obtain ⟨s, location, body⟩ := n
  obtain ⟨s', location', body'⟩ := m
  cases h <;> exact ⟨rfl, rfl⟩

namespace Node.AllAlike

theorem refl : (ns : List Node) → AllAlike ns ns
  | [] => .nil
  | .mk s _ body :: ns => .cons (.refl s) (refl body) (refl ns)

theorem append {as as' bs bs' : List Node} (ha : AllAlike as as') (hb : AllAlike bs bs') :
    AllAlike (as ++ bs) (as' ++ bs') := by
  induction ha with
  | nil => exact hb
  | cons hs hbody _ _ ih => exact .cons hs hbody ih

theorem statements (h : AllAlike ns ms) : Forall₂ (fun n m : Node => n.statement.Alike m.statement) ns ms := by
  induction h with
  | nil => exact .nil
  | cons hs _ _ _ ih => exact .cons hs ih

theorem kinds (h : AllAlike ns ms) :
    Forall₂ (fun n m : Node => n.isComment = m.isComment ∧ n.isConditional = m.isConditional)
      ns ms :=
  h.statements.imp fun _ _ => kinds_of_alike

theorem filter_comments (h : AllAlike ns ms) :
    AllAlike (ns.filter fun n => !n.isComment) (ms.filter fun n => !n.isComment) := by
  induction h with
  | nil => exact .nil
  | @cons s s' location location' body body' ns ms hs hbody _ _ ih =>
    have hkind := kinds_of_alike (n := .mk s location body) (m := .mk s' location' body') hs
    rw [filter_cons, filter_cons, hkind.1]
    split
    · exact .cons hs hbody ih
    · exact ih

end Node.AllAlike

theorem branchMayFollow_congr (h : Forall₂ (fun n m : Node =>
      n.isComment = m.isComment ∧ n.isConditional = m.isConditional) ns ms) :
    branchMayFollow ns = branchMayFollow ms := by
  have hfind : ∀ {ns ms : List Node}, Forall₂ (fun n m : Node =>
      n.isComment = m.isComment ∧ n.isConditional = m.isConditional) ns ms →
      (ns.find? fun n => !n.isComment).map Node.isConditional =
        (ms.find? fun n => !n.isComment).map Node.isConditional := by
    intro ns ms h
    induction h with
    | nil => rfl
    | @cons n m ns ms hfirst _ ih =>
      rw [find?_cons, find?_cons, hfirst.1]
      split
      · rw [Option.map_some, Option.map_some, hfirst.2]
      · exact ih
  have hfound := hfind (rel_reverse h)
  rw [branchMayFollow, branchMayFollow]
  cases hn : ns.reverse.find? (fun n => !n.isComment) <;>
    cases hm : ms.reverse.find? (fun n => !n.isComment) <;> simp_all

end CirOutline
