import CirOutline.Proofs.Emission.Printing
import CirOutline.Proofs.Expression.Rendering
import CirOutline.Proofs.Layout.Names
import CirOutline.Proofs.Layout.Writing

/-!
The arguments of a call. They are what stands before the first closing parenthesis at which as many
parentheses have been closed as opened. The reader finds it with a counter, so the counter is related to
the numbers of parentheses passed. What was read balances, and so does the line of C that it becomes.
-/

namespace CirOutline

open List Token Text Expression

def Token.paren? (t : Token) : Option Bool :=
  match t.kind with
  | .openParen => some true
  | .closeParen => some false
  | _ => none

def Text.paren? (c : Char) : Option Bool :=
  if c = '(' then some true else if c = ')' then some false else none

/-- The parentheses of a list balance: no beginning closes more than it opens, and the whole closes as
many as it opens. -/
def Enclosed {α : Type} (paren? : α → Option Bool) (run : List α) : Prop :=
  (∀ p, p <+: run → (p.filterMap paren?).count false ≤ (p.filterMap paren?).count true) ∧
    (run.filterMap paren?).count true = (run.filterMap paren?).count false

/-- Behind an opening parenthesis stands `run`, then `close`, the first closing parenthesis at which as
many are closed as opened, and all of it is on the line. -/
structure Token.ClosedBy (close : Token) (run after rest : List Token) : Prop where
  split : rest = run ++ close :: after
  closing : close.kind = .closeParen
  even : (run.filterMap paren?).count true = (run.filterMap paren?).count false
  first : ∀ p, p ++ [false] <+: run.filterMap paren? → p.count true ≠ p.count false
  line : ∀ t ∈ run, t.kind ≠ .lineBreak

variable {run rest after : List Token} {depth : Nat} {close opening name : Token} {source : Source}

theorem Token.balanced_iff : Balanced depth run ↔
    (run.filterMap paren?).count true + depth = (run.filterMap paren?).count false ∧
      ∀ p, p ++ [false] <+: run.filterMap paren? → p.count true + depth ≠ p.count false := by
  induction run generalizing depth with
  | nil => simp [Balanced]
  | cons u run ih =>
    -- a beginning of the parentheses is empty or starts with the first
    have hcons : ∀ (b : Bool) (bits : List Bool),
        (∀ p, p ++ [false] <+: b :: bits → p.count true + depth ≠ p.count false) ↔
          (b = false → depth ≠ 0) ∧ ∀ p, p ++ [false] <+: bits →
            (b :: p).count true + depth ≠ (b :: p).count false := by
      refine fun b bits => ⟨fun h => ⟨?_, fun p hp => h (b :: p) ((prefix_cons_inj b).mpr hp)⟩, ?_⟩
      · rintro rfl
        simpa using h [] (by simp)
      · rintro ⟨hb, hmore⟩ (_ | ⟨d, p⟩) hp
        · simpa using hb (cons_prefix_cons.mp hp).1.symm
        · obtain ⟨rfl, htail⟩ := cons_prefix_cons.mp hp
          exact hmore p htail
    rw [Balanced]
    split_ifs with hopen hclose
    · have hsome : u.paren? = some true := by simp [paren?, hopen]
      rw [filterMap_cons_some hsome, hcons, ih]
      simp [Nat.add_assoc, Nat.add_comm 1]
    · have hsome : u.paren? = some false := by simp [paren?, hclose]
      rw [filterMap_cons_some hsome, hcons]
      cases depth with
      | zero => simp
      | succ depth => simp [ih, ← Nat.add_assoc]
    · have hnone : u.paren? = none := by
        unfold paren?
        split <;> first | rfl | contradiction
      rw [filterMap_cons_none hnone, ih]

theorem Token.closedBy_iff : close.ClosedBy run after rest ↔ close.kind = .closeParen ∧
    rest = run ++ close :: after ∧ Balanced 0 run ∧ ∀ t ∈ run, t.kind ≠ .lineBreak := by
  rw [balanced_iff]
  exact ⟨fun h => ⟨h.closing, h.split, ⟨h.even, h.first⟩, h.line⟩,
    fun ⟨hkind, hsplit, ⟨heven, hfirst⟩, hline⟩ => ⟨hsplit, hkind, heven, hfirst, hline⟩⟩

theorem Token.Balanced.count_le (h : Balanced 0 run) {p : List Bool}
    (hp : p <+: run.filterMap paren?) : p.count false ≤ p.count true := by
  induction p using List.reverseRecOn with
  | nil => exact Nat.le_refl 0
  | append_singleton p b ih =>
    have hle := ih ((prefix_append p [b]).trans hp)
    cases b with
    | true => simpa using Nat.le_succ_of_le hle
    | false =>
      have hne := (balanced_iff.mp h).2 p hp
      simp only [count_append]
      simp
      omega

/-! ### Reading a call -/

namespace Reader

variable {c c' : Cursor} {gap : List Token}

theorem complete_not_runaway (s : Statement) (location : Location) (report : Diagnostic)
    (hreport : ∃ construct, report.fault = .runaway construct) :
    complete s location c ≠ .error (.diagnosed report) c' := by
  obtain ⟨construct, hfault⟩ := hreport
  let E : Stop → Cursor → Prop := fun stop _ => stop ≠ .diagnosed report
  have hnext : ∀ c : Cursor, Ends advance c (fun _ _ => True) E := by
    refine fun c => Ends.bind (Q := fun _ _ => True) (Ends.bind_get ?_) fun _ _ _ => Ends.pure trivial
    cases c.rest with
    | nil => exact Ends.throw (by simp [E])
    | cons t rest => exact Ends.bind_set (Ends.pure trivial)
  have haccept : Ends (accept? .comment) c (fun _ _ => True) E := by
    refine Ends.bind_ok (skipSpaces_eq c) ?_
    cases (c.rest.dropWhile fun t => t.kind == .spaces).head? with
    | none => exact Ends.pure trivial
    | some t =>
      dsimp only
      split_ifs
      · exact Ends.bind (hnext _) fun _ _ _ => Ends.pure trivial
      · exact Ends.pure trivial
  have hfinish : Ends finishLine c (fun _ _ => True) E := by
    refine Ends.bind haccept fun found c1 _ => ?_
    cases found <;> refine Ends.bind_pure (Ends.bind_get ?_)
    all_goals
      cases c1.rest with
      | nil => exact Ends.pure trivial
      | cons t rest =>
        dsimp only
        split_ifs
        · exact Ends.bind (hnext c1) fun _ _ _ => Ends.pure trivial
        · refine Ends.of_error rfl fun hstop => ?_
          cases hstop
          cases hfault
  have hends : Ends (complete s location) c (fun _ _ => True) E :=
    Ends.bind hfinish fun _ _ _ => Ends.pure trivial
  exact fun herror => hends.error herror rfl

section

variable (hc : c.rest = name :: (gap ++ opening :: rest))
include hc

theorem callLine_eq (hgap : ∀ g ∈ gap, g.kind = .spaces) (hopening : opening.kind = .openParen) :
    callLine name c = (sequence (readArguments opening · 0) >>= fun arguments =>
      complete (.call name.raw arguments) name.location) { c with rest := rest } := by
  rw [callLine, bind_of_ok (advance_eq hc), bind_of_ok (expect_hit "'('" rfl hgap hopening (by decide))]

theorem callLine_closed (hgap : ∀ g ∈ gap, g.kind = .spaces) (hopening : opening.kind = .openParen)
    (h : close.ClosedBy run after rest) :
    callLine name c = complete (.call name.raw run) name.location { c with rest := after } := by
  obtain ⟨hclose, rfl, hbalanced, hline⟩ := closedBy_iff.mp h
  rw [callLine_eq hc hgap hopening]
  exact bind_of_ok (sequence_to (readArguments_written hbalanced hline hclose))

end

theorem readArguments_error {source : Source} {stop : SequenceStop}
    (h : readArguments opening source depth rest = .error stop) :
    stop.report = source.report (.runaway "argument list") opening.location := by
  have hkeep : ∀ {t : Token} {r : SequenceResult (List Token)},
      SequenceResult.prepend t r = .error stop → r = .error stop := by
    rintro t (other | read) hr
    · exact hr
    · cases hr
  induction rest generalizing depth with
  | nil =>
    cases h
    rfl
  | cons t rest ih =>
    unfold readArguments at h
    split_ifs at h
    · cases h
      rfl
    · exact ih (hkeep h)
    · cases depth with
      | zero => cases h
      | succ depth => exact ih (hkeep h)
    · exact ih (hkeep h)

theorem callLine_runaway_iff (hc : c.rest = name :: (gap ++ opening :: rest))
    (hgap : ∀ g ∈ gap, g.kind = .spaces) (hopening : opening.kind = .openParen) :
    (∃ c', callLine name c =
        .error (.diagnosed (c.source.report (.runaway "argument list") opening.location)) c') ↔
      ¬ ∃ close run after, ClosedBy close run after rest := by
  constructor
  · rintro ⟨c', herror⟩ ⟨close, run, after, h⟩
    rw [callLine_closed hc hgap hopening h] at herror
    exact complete_not_runaway _ _ _ ⟨_, rfl⟩ herror
  · intro hnone
    have hmeets := readArguments_meets opening c.source 0 rest
    cases hread : readArguments opening c.source 0 rest with
    | ok read =>
      rw [hread] at hmeets
      obtain ⟨close, h⟩ := hmeets
      exact absurd ⟨close, _, _, closedBy_iff.mpr h⟩ hnone
    | error stop =>
      rw [callLine_eq hc hgap hopening, ← readArguments_error hread]
      refine ⟨{ c with rest := stop.rest }, bind_of_error ?_⟩
      rw [sequence, hread]

end Reader

/-! ### The line of a call -/

namespace Expression

open LexicalRule

theorem filterMap_paren?_spell {t : Token} (ht : Solid t) :
    (spell t).toList.filterMap Text.paren? = t.paren?.toList := by
  have hplain : ∀ cs : List Char, (∀ c ∈ cs, CToken.continuesIdentifier c = true) →
      cs.filterMap Text.paren? = [] := by
    refine fun cs hcs => filterMap_eq_nil_iff.mpr fun c hc => ?_
    unfold Text.paren?
    split_ifs with hopen hclose
    · exact absurd (hcs c hc) (by rw [hopen]; decide)
    · exact absurd (hcs c hc) (by rw [hclose]; decide)
    · rfl
  rcases kind_cases t with hkind | hkind | hkind
  · obtain ⟨c, body, htext, hc, hbody⟩ := identifier_of_solid ht hkind
    rw [htext, hplain _ (forall_mem_cons.mpr ⟨continues_of_starts hc, hbody⟩)]
    rcases hkind with hkind | hkind <;> simp [Token.paren?, hkind]
  · obtain ⟨c, body, hraw, hc, hbody⟩ := hkind ▸ ht.lexeme
    have hfirst : CToken.continuesIdentifier c = true := by
      simp [CToken.continuesIdentifier, continuesName, Char.isAlphanum, hc]
    rw [spell_of_ne (by simp [hkind]), hraw, hplain _ (forall_mem_cons.mpr ⟨hfirst, fun d hd => by
      simp [CToken.continuesIdentifier, continuesName_of_hex (hbody d hd)]⟩)]
    simp [Token.paren?, hkind]
  · have hlexeme := ht.lexeme
    by_cases hoperator : t.kind = .operator
    · rw [hoperator] at hlexeme
      have hall : ((operatorWords ++ operatorSymbols).all fun raw =>
          (spell ⟨.operator, raw, ⟨"", 0, 0⟩⟩).toList.filterMap Text.paren? == []) = true := by decide
      have hspell := all_eq_true.mp hall t.raw (by simpa [TokenKind.Lexeme] using hlexeme)
      simpa [Token.paren?, hoperator, spell] using hspell
    · rw [spell_of_ne hoperator]
      have hraw := raw_mem_symbols ht hkind hoperator
      unfold Token.paren?
      generalize t.raw = raw at hraw
      cases hk : t.kind <;> rw [hk] at hraw <;>
        simp only [TokenKind.symbols, mem_cons, not_mem_nil, or_false] at hraw <;>
        first | (subst hraw; decide) | (rcases hraw with rfl | rfl <;> decide)

theorem filterMap_paren?_pieces (before : Option (Token × Bool)) (hrun : ∀ t ∈ run, Solid t) :
    ((pieces before run).flatMap String.toList).filterMap Text.paren? = run.filterMap Token.paren? := by
  induction run generalizing before with
  | nil => rfl
  | cons t run ih =>
    obtain ⟨ht, hrun⟩ := forall_mem_cons.mp hrun
    have hspace : paren? ' ' = none := by decide
    have htoken : (t :: run).filterMap Token.paren? = t.paren?.toList ++ run.filterMap Token.paren? := by
      cases h : t.paren? <;> simp [h]
    rw [htoken]
    cases before with
    | none => simp [pieces, filterMap_paren?_spell ht, ih _ hrun]
    | some before =>
      by_cases hspaced : spaced before.1 before.2 t = true <;>
        simp [pieces, hspaced, filterMap_paren?_spell ht, ih _ hrun, hspace]

theorem filterMap_paren?_significant (run : List Token) :
    (significant run).filterMap Token.paren? = run.filterMap Token.paren? := by
  rw [significant, filterMap_filter]
  refine filterMap_congr fun t _ => ?_
  cases h : t.kind <;> simp [Token.paren?, h]

end Expression

theorem enclosed_callText {name : String} {arguments : List Token} (width : Int)
    (hlexical : (Statement.call name arguments).Lexical) (hbalanced : Balanced 0 arguments) :
    Enclosed Text.paren? (shift width (name ++ "(" ++ Expression.render arguments ++ ");")).toList := by
  obtain ⟨loose, hmarks⟩ := hlexical.marks
  have hsolid : ∀ t ∈ significant arguments, Solid t := by
    intro t ht
    rw [significant, mem_filter] at ht
    have hkinds : t.kind ≠ .spaces ∧ t.kind ≠ .lineBreak ∧ t.kind ≠ .comment := by simpa [and_assoc] using ht.2
    refine ⟨hmarks (.copy t) ?_ (by simpa [Mark.isGap] using hkinds.1), hkinds.1, hkinds.2.1, hkinds.2.2⟩
    simp [Statement.marks, Mark.run, ht.1]
  have hname : name.toList.filterMap Text.paren? = [] := by
    have hword : TokenKind.word.Lexeme name.toList := hmarks (.word name) (by simp [Statement.marks]) rfl
    exact filterMap_paren?_spell (t := ⟨.word, name, ⟨"", 0, 0⟩⟩) ⟨hword, by simp, by simp, by simp⟩
  have hmargin : (blanks width).toList.filterMap Text.paren? = [] := by simp [blanks, Text.paren?]
  have hline : shift width (name ++ "(" ++ render arguments ++ ");") =
      blanks width ++ (name ++ "(" ++ render arguments ++ ");") := by simp [shift]
  have hbits : (shift width (name ++ "(" ++ Expression.render arguments ++ ");")).toList.filterMap Text.paren? =
      true :: arguments.filterMap Token.paren? ++ [false] := by
    have hends : "(".toList.filterMap Text.paren? = [true] ∧ ");".toList.filterMap Text.paren? = [false] := by
      decide
    rw [hline, String.toList_append, String.toList_append, String.toList_append, String.toList_append,
      render, String.toList_join]
    simp only [filterMap_append, hmargin, hname, hends, filterMap_paren?_pieces none hsolid,
      filterMap_paren?_significant]
    rfl
  have heven := (balanced_iff.mp hbalanced).1
  refine ⟨fun p hp => ?_, by rw [hbits]; simpa using heven⟩
  have hbeginning := hp.filterMap Text.paren?
  rw [hbits] at hbeginning
  generalize p.filterMap Text.paren? = q at hbeginning
  rcases prefix_concat_iff.mp hbeginning with rfl | hinner
  · simpa using Nat.le_of_eq heven.symm
  · cases q with
    | nil => simp
    | cons b q =>
      obtain ⟨rfl, hq⟩ := cons_prefix_cons.mp hinner
      simpa using Nat.le_succ_of_le (hbalanced.count_le hq)

/-- The arguments of a call are the tokens before the first closing parenthesis that balances the
opening one; the call is a runaway, blamed on the opening parenthesis, exactly when there is none on
the line. So the parentheses of a call balance in the tokens that are captured and in the line of C. -/
theorem call_ends_at_matching_parenthesis :
    (∀ (c : Cursor) (name opening : Token) (gap rest : List Token),
      c.rest = name :: (gap ++ opening :: rest) → (∀ g ∈ gap, g.kind = .spaces) →
      opening.kind = .openParen →
        (∀ close run after, Token.ClosedBy close run after rest →
          Reader.callLine name c =
              Reader.complete (.call name.raw run) name.location { c with rest := after } ∧
            Enclosed Token.paren? run) ∧
        ((∃ c', Reader.callLine name c =
            .error (.diagnosed (c.source.report (.runaway "argument list") opening.location)) c') ↔
          ¬ ∃ close run after, Token.ClosedBy close run after rest)) ∧
    ∀ (source file : String) (lines : List String) (tokens : List Token) (program : Program),
      tokenize source file = .ok tokens → readProgram tokens file lines = .ok program →
      ∀ name arguments, .call name arguments ∈ Node.statements program.nodes →
      ∀ (options : Options) (place : Option Location) (e e' : Emitter),
        Emission.call options name arguments place e = .ok () e' →
        ∃ line, e.Wrote [line] e' ∧ Enclosed Text.paren? line.toList := by
  refine ⟨fun c name opening gap rest hc hgap hopening => ⟨fun close run after h => ?_, ?_⟩, ?_⟩
  · refine ⟨Reader.callLine_closed hc hgap hopening h, fun p hp => ?_, h.even⟩
    exact (Token.closedBy_iff.mp h).2.2.1.count_le (hp.filterMap _)
  · exact Reader.callLine_runaway_iff hc hgap hopening
  · intro source file lines tokens program htokens hread name arguments hcall options place e e' hrun
    obtain ⟨pieces, hsay, hwrote⟩ := (Emission.call_refines name arguments place e).ok hrun
    obtain ⟨rfl, -⟩ := Prod.mk.inj (Option.some.inj hsay)
    refine ⟨_, hwrote, enclosed_callText _ (readProgram_names htokens hread _ hcall).1 ?_⟩
    exact ((readProgram_wellFormed hread).1.forall_statement _ hcall).1.1

/-- In `f(g())` the second closing parenthesis ends the call, and behind `f(` nothing in `g()` does. -/
theorem call_ends_after_nested_pair :
    let tokenAt : Nat → TokenKind → String → Token := fun column kind raw => ⟨kind, raw, ⟨"m.cir", 1, column⟩⟩
    let inner := [tokenAt 3 .word "g", tokenAt 4 .openParen "(", tokenAt 5 .closeParen ")"]
    let cursor : List Token → Cursor := fun rest => ⟨rest, 1, none, [], [], ⟨[], ⟨"m.cir", 1, 7⟩⟩⟩
    Reader.callLine (tokenAt 1 .word "f") (cursor (tokenAt 1 .word "f" :: tokenAt 2 .openParen "(" ::
        (inner ++ [tokenAt 6 .closeParen ")"]))) =
      Reader.complete (.call "f" inner) ⟨"m.cir", 1, 1⟩ (cursor []) ∧
    ¬ ∃ close run after, Token.ClosedBy close run after inner := by
  intro tokenAt inner cursor
  constructor
  · refine ((call_ends_at_matching_parenthesis.1 _ _ (tokenAt 2 .openParen "(") [] _ rfl (by simp) rfl).1
      _ inner [] (Token.closedBy_iff.mpr ⟨?_, rfl, ?_, ?_⟩)).1
    · rfl
    · simp [inner, tokenAt, Token.Balanced]
    · simp [inner, tokenAt]
  · exact (call_ends_at_matching_parenthesis.1
      (cursor (tokenAt 1 .word "f" :: tokenAt 2 .openParen "(" :: inner))
      (tokenAt 1 .word "f") (tokenAt 2 .openParen "(") [] inner rfl (by simp) rfl).2.mp ⟨_, rfl⟩

end CirOutline
