import CirOutline.Proofs.Layout.Reporting

/-!
Reading any list of tokens, also one that no text gives. A pass of a block either takes a line with
the block below it, and then leaves fewer tokens than it found, or it ends the block and hands the
line back that it looked at. So the check against a pass that takes nothing never applies, and
reading comes to the end of the list or to a fault of layout, of grammar or of an unsupported
feature. All that is supposed of the tokens is that white space is not empty.
-/

namespace CirOutline

open List

variable {c c1 c2 : Cursor} {floor level : Nat} {t : Token}

/-! ### Looking for a line -/

/-- A pass that ends a block at `floor`: only blank lines are taken, and the level is as before. What
comes next is the end of the input or a line that is not deep enough. -/
structure HandsBack (floor : Nat) (c c' : Cursor) : Prop where
  rest : c'.rest = dropBlankLines c.rest
  level : c'.level = c.level
  shallow : c'.rest = [] ∨ SourceLine.level c'.unit (lineTokens c'.rest) < floor

theorem Reader.nextLine_ends (floor : Nat) (hfilled : Filled c.rest) :
    Reports (nextLine floor) c fun found c' =>
      match found with
      | none => HandsBack floor c c'
      | some _ => True := by
  have hsearch := nextLine_search floor c
  cases hnext : nextLine floor c with
  | ok found c' =>
    rw [hnext] at hsearch
    refine .of_ok hnext ?_
    cases hsearch with
    | ended hdrop => exact ⟨hdrop.symm, rfl, .inl rfl⟩
    | @shallow u rest level unit hdrop hindent hlevel =>
      have hmeasured := measured_of_indent? hindent (hfilled.head hdrop) (dropBlankLines_head hdrop).1 rest
      exact ⟨hdrop.symm, rfl, .inr (hmeasured.level unit (.refl _) ▸ hlevel)⟩
    | found => trivial
  | error stop d =>
    rw [hnext] at hsearch
    cases hsearch with
    | failed hdrop hindent => exact .of_error hnext (isReading_indentStop hindent (hfilled.head hdrop) _)

/-! ### Blocks -/

/-- How a block ends: in front of a line that is not deep enough or at the end of the input, or with
a cause that the layout reader reports. -/
def BlockEnds (floor : Nat) (c : Cursor) : Except BlockFailure (List Node × Cursor) → Prop
  | .ok (_, c') => c'.rest = [] ∨ SourceLine.level c'.unit (lineTokens c'.rest) < floor
  | .error failure => c.journal <+: failure.cursor.journal ∧ failure.stop.IsReading

theorem BlockEnds.of_later {c' : Cursor} {result : Except BlockFailure (List Node × Cursor)}
    (h : BlockEnds floor c' result) (hlater : c.Later c') : BlockEnds floor c result := by
  cases result with
  | ok read => exact h
  | error failure => exact ⟨hlater.journal.trans h.1, h.2⟩

theorem readBlock_blockEnds (reader : LineReader) (floor : Nat) (done : List Node) (c : Cursor)
    (hreader : reader ≠ .idle) (hfilled : Filled c.rest) :
    BlockEnds floor c (readBlock reader floor done c) := by
  fun_induction readBlock reader floor done c with
  | case1 reader floor done c stop c1 hnext =>
    have hsearch := Reader.nextLine_search floor c
    rw [hnext] at hsearch
    cases hsearch with
    | failed hdrop hindent => exact ⟨prefix_append _ _, isReading_indentStop hindent (hfilled.head hdrop) _⟩
  | case2 reader floor done c c1 hnext =>
    have hback : HandsBack floor c c1 := (Reader.nextLine_ends floor hfilled).ok hnext
    exact hback.shallow
  | case3 reader floor done c level t c1 hnext stop c2 hline =>
    obtain ⟨-, -, hjournal, -, hfound⟩ := Reader.Search.line hnext
    obtain ⟨-, -, rest, hc1⟩ := hfound level t rfl
    have hgrows := (Reader.line_meets hreader hc1 false (by simp)).exchange.error hline
    exact ⟨hjournal.trans hgrows.1.1, (Reader.line_meets hreader hc1 false (by simp)).ends.error hline⟩
  | case4 reader floor done c level t c1 hnext c2 hlt nodes hline ih =>
    obtain ⟨hlater, -⟩ := line_advances hreader hnext hline
    exact (ih hreader (hfilled.of_suffix hlater.suffix)).of_later hlater
  | case5 reader floor done c level t c1 hnext c2 hlt s location comments body failure hfail hline ih =>
    obtain ⟨hlater, -⟩ := line_advances hreader hnext hline
    have hinner := ih body.reader_ne_idle (hfilled.of_suffix hlater.suffix)
    rw [hfail] at hinner
    exact ⟨(hlater.trans (c2.later_enter _)).journal.trans hinner.1, hinner.2⟩
  | case6 reader floor done c level t c1 hnext c2 hlt s location comments body nodes c3 hblock problem
      hclose hline ih =>
    exact ⟨(block_advances hreader hnext hline hblock).1.journal, BodyKind.close_error hclose⟩
  | case7 reader floor done c level t c1 hnext c2 hlt s location comments body nodes c3 hblock members
      hclose hlt3 hline ih ih' =>
    obtain ⟨hlater, -⟩ := block_advances hreader hnext hline hblock
    exact (ih' hreader (hfilled.of_suffix hlater.suffix)).of_later hlater
  | case8 reader floor done c level t c1 hnext c2 hlt s location comments body nodes c3 hblock members
      hclose hstall hline ih =>
    exact absurd (block_advances hreader hnext hline hblock).2 hstall
  | case9 reader floor done c level t c1 hnext line c2 hline hstall =>
    exact absurd (line_advances hreader hnext hline).2 hstall

/-! ### Passes -/

/-- One pass of a block: the nodes of the next line with the block below it, or none when the block is
over. -/
def readPass (reader : LineReader) (floor : Nat) (done : List Node) (c : Cursor) :
    Except BlockFailure (Option (List Node) × Cursor) :=
  match Reader.nextLine floor c with
  | .error stop c1 => .error ⟨stop, c1, done⟩
  | .ok none c1 => .ok (none, c1)
  | .ok (some (level, t)) c1 =>
    match Reader.line reader t level done c1 with
    | .error stop c2 => .error ⟨stop, c2, done⟩
    | .ok (.complete nodes) c2 => .ok (some nodes, c2)
    | .ok (.header statement location comments body) c2 =>
      match readBlock body.reader (level + 1) comments (c2.enter (level + 1)) with
      | .error failure => .error { failure with built := done }
      | .ok (nodes, c3) =>
        match body.close c3.source nodes with
        | .error report => .error ⟨.diagnosed report, c3, done⟩
        | .ok members => .ok (some [.mk statement (some location) members], c3)

def afterPass (reader : LineReader) (floor : Nat) (done : List Node) :
    Except BlockFailure (Option (List Node) × Cursor) → Except BlockFailure (List Node × Cursor)
  | .error failure => .error failure
  | .ok (none, c) => .ok (done, c.leave floor done.length)
  | .ok (some nodes, c) => readBlock reader floor (done ++ nodes) c

section Pass

variable {reader : LineReader} {done nodes : List Node} {c' : Cursor}

theorem nextLine_of_readPass (h : readPass reader floor done c = .ok (none, c')) :
    Reader.nextLine floor c = .ok none c' := by
  rw [readPass] at h
  split at h
  · cases h
  · next hnext =>
    cases h
    exact hnext
  · split at h
    · cases h
    · cases h
    · split at h
      · cases h
      · split at h <;> cases h

variable (hreader : reader ≠ .idle)
include hreader

theorem readPass_advances (h : readPass reader floor done c = .ok (some nodes, c')) :
    c.Later c' ∧ c'.rest.length < c.rest.length := by
  rw [readPass] at h
  split at h
  · cases h
  · cases h
  · next level t c1 hnext =>
    split at h
    · cases h
    · next nodes c2 hline =>
      cases h
      exact line_advances hreader hnext hline
    · next s location comments body c2 hline =>
      split at h
      · cases h
      · next read c3 hblock =>
        split at h
        · cases h
        · cases h
          exact block_advances hreader hnext hline hblock

theorem readBlock_eq_passes :
    readBlock reader floor done c = afterPass reader floor done (readPass reader floor done c) := by
  rw [readBlock, readPass]
  cases hnext : Reader.nextLine floor c with
  | error stop c1 => rfl
  | ok found c1 =>
    cases found with
    | none => rfl
    | some found =>
      obtain ⟨level, t⟩ := found
      dsimp only
      cases hline : Reader.line reader t level done c1 with
      | error stop c2 => rfl
      | ok line c2 =>
        have hlt := (line_advances hreader hnext hline).2
        cases line with
        | complete nodes => simp only [hlt, if_true, afterPass]
        | header s location comments body =>
          simp only [hlt, if_true]
          cases hblock : readBlock body.reader (level + 1) comments (c2.enter (level + 1)) with
          | error failure => rfl
          | ok read =>
            have hless := (block_advances hreader hnext hline hblock).2
            cases hclose : body.close read.2.source read.1 with
            | error report => simp only [hclose, afterPass]
            | ok members => simp only [hclose, hless, if_true, afterPass]

end Pass

/-! ### Programs -/

theorem filled_of_ne {tokens : List Token} (h : ∀ t ∈ tokens, t.kind = .spaces → t.raw ≠ "") : Filled tokens :=
  fun t ht hkind => Nat.pos_of_ne_zero fun hlength => h t ht hkind (String.length_eq_zero_iff.mp hlength)

end CirOutline
