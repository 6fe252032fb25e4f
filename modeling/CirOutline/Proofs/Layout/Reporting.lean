import CirOutline.Proofs.Layout.Outlined

/-!
The source that the tokens are from reaches the reports of the layout reader and nothing else. With
another source the reading of a block gives the same nodes and ends at the same position, or it stops
there for the same fault at the same place, where the end of the input is the end of each source.
-/

namespace CirOutline

open List

variable {source : Source}

namespace Reader

variable {α : Type} {m : Reader α} {c c' : Cursor}

/-- From one position, with any source, the step gives the same or stops for the same fault. -/
def Retold (m : Reader α) (c : Cursor) : Prop :=
  Ends m c (fun a c' => ∀ source, m (c.reporting source) = .ok a (c'.reporting source)) (Retells m c)

theorem Retold.source_eq {a : α} (h : Retold m c) (hm : m c = .ok a c') : c'.source = c.source := by
  have hsame : m c = .ok a (c'.reporting c.source) := h.ok hm c.source
  obtain ⟨-, hc'⟩ := EStateM.Result.ok.inj (hm.symm.trans hsame)
  rw [hc']
  rfl

theorem nextLine_retold (floor : Nat) (c : Cursor) : Retold (nextLine floor) c := by
  have hsearch := nextLine_search floor c
  rw [Retold, Ends]
  generalize nextLine floor c = result at hsearch
  cases hsearch with
  | ended hdrop => exact fun source => nextLine_nil (c := c.reporting source) hdrop
  | shallow hdrop hindent hlevel =>
    exact fun source => nextLine_back (c := c.reporting source) hdrop hindent hlevel
  | found hdrop hindent hlevel hstart hbreak =>
    exact fun source => nextLine_deep (c := c.reporting source) hdrop hindent hlevel hstart
  | failed hdrop hindent =>
    intro source
    refine ⟨_, nextLine_stops (c := c.reporting source) hdrop hindent, ?_⟩
    change Stop.Retold c.source source (indentStop c.source c.unit _) (indentStop source c.unit _)
    cases c.unit with
    | none => exact .broken _
    | some width => exact .there _ (some _)

theorem line_retold {floor level : Nat} {t : Token} (h : nextLine floor c = .ok (some (level, t)) c')
    (reader : LineReader) (siblings : List Node) : Retold (line reader t level siblings) c' := by
  obtain ⟨-, -, -, -, hfound⟩ := Search.line h
  obtain ⟨-, -, rest, hrest⟩ := hfound level t rfl
  by_cases hreader : reader = .idle
  · rw [hreader]
    exact fun _ => rfl
  · refine Ends.mono (line_meets hreader hrest false nofun).exchange (fun _ _ hread => ?_) fun _ _ hstop => hstop.2
    exact hread.2.1

end Reader

/-! ### Blocks -/

theorem BodyKind.close_ok_retold {body : BodyKind} {nodes members : List Node}
    (h : body.close source nodes = .ok members) (source' : Source) : body.close source' nodes = .ok members := by
  cases body with
  | statements | options => exact h
  | member name =>
    rw [close] at h ⊢
    split at h <;> cases h
    rfl

theorem BodyKind.close_error_retold {body : BodyKind} {nodes : List Node} {report : Diagnostic}
    (h : body.close source nodes = .error report) (source' : Source) :
    ∃ report', body.close source' nodes = .error report' ∧
      (Stop.diagnosed report).Retold source source' (.diagnosed report') := by
  cases body with
  | statements | options => cases h
  | member name =>
    rw [close] at h ⊢
    split at h <;> cases h
    · exact ⟨_, rfl, .there _ (some name)⟩
    · exact ⟨_, rfl, .there _ _⟩

/-- With another source a block is read alike, or it fails alike, at the same position. -/
inductive BlockRetold (source : Source) : (r r' : Except BlockFailure (List Node × Cursor)) → Prop
  | ok (nodes : List Node) (c : Cursor) : BlockRetold source (.ok (nodes, c)) (.ok (nodes, c.reporting source))
  | error (built : List Node) {stop stop' : Stop} {c : Cursor} (hstop : stop.Retold c.source source stop') :
      BlockRetold source (.error ⟨stop, c, built⟩) (.error ⟨stop', c.reporting source, built⟩)

namespace BlockRetold

variable {r : Except BlockFailure (List Node × Cursor)} {nodes : List Node} {c : Cursor} {failure : BlockFailure}

theorem of_ok (h : BlockRetold source (.ok (nodes, c)) r) : r = .ok (nodes, c.reporting source) := by
  cases h
  rfl

theorem of_error (h : BlockRetold source (.error failure) r) :
    ∃ stop', r = .error ⟨stop', failure.cursor.reporting source, failure.built⟩ ∧
      failure.stop.Retold failure.cursor.source source stop' := by
  cases h with
  | error _ hstop => exact ⟨_, rfl, hstop⟩

end BlockRetold

theorem readBlock_retold (source : Source) (reader : LineReader) (hreader : reader ≠ .idle) (floor : Nat)
    (done : List Node) (c : Cursor) :
    BlockRetold source (readBlock reader floor done c) (readBlock reader floor done (c.reporting source)) := by
  -- the lengths that are compared are those of the tokens, which stay
  have hlength : ∀ c : Cursor, (c.reporting source).rest.length = c.rest.length := fun _ => rfl
  fun_induction readBlock reader floor done c with
  | case1 reader floor done c stop c1 hnext =>
    obtain ⟨stop', hnext', hstop⟩ := (Reader.nextLine_retold floor c).error hnext source
    rw [readBlock, hnext']
    exact .error done hstop
  | case2 reader floor done c c1 hnext =>
    rw [readBlock, (Reader.nextLine_retold floor c).ok hnext source]
    exact .ok done _
  | case3 reader floor done c level t c1 hnext stop c2 hline =>
    obtain ⟨stop', hline', hstop⟩ := (Reader.line_retold hnext reader done).error hline source
    rw [readBlock, (Reader.nextLine_retold floor c).ok hnext source]
    simp only [hline']
    exact .error done hstop
  | case4 reader floor done c level t c1 hnext c2 hlt new hline ih =>
    rw [readBlock.eq_def _ _ _ (c.reporting source), (Reader.nextLine_retold floor c).ok hnext source]
    simp only [(Reader.line_retold hnext reader done).ok hline source, hlength, hlt, if_true]
    exact ih hreader
  | case5 reader floor done c level t c1 hnext c2 hlt s location comments body failure hfail hline ih =>
    obtain ⟨stop', hfail', hstop⟩ := (hfail ▸ ih body.reader_ne_idle).of_error
    have hfail' : readBlock _ _ _ ((c2.reporting source).enter _) = _ := hfail'
    rw [readBlock, (Reader.nextLine_retold floor c).ok hnext source]
    simp only [(Reader.line_retold hnext reader done).ok hline source, hlength, hlt, if_true, hfail']
    exact .error done hstop
  | case6 reader floor done c level t c1 hnext c2 hlt s location comments body block c3 hblock report hclose
      hline ih =>
    have hblock' : readBlock _ _ _ ((c2.reporting source).enter _) = _ := (hblock ▸ ih body.reader_ne_idle).of_ok
    obtain ⟨report', hclose', hstop⟩ := BodyKind.close_error_retold hclose source
    have hclose' : body.close (c3.reporting source).source block = _ := hclose'
    rw [readBlock, (Reader.nextLine_retold floor c).ok hnext source]
    simp only [(Reader.line_retold hnext reader done).ok hline source, hlength, hlt, if_true, hblock', hclose']
    exact .error done hstop
  | case7 reader floor done c level t c1 hnext c2 hlt s location comments body block c3 hblock members hclose
      hlt3 hline ih ih' =>
    have hblock' : readBlock _ _ _ ((c2.reporting source).enter _) = _ := (hblock ▸ ih body.reader_ne_idle).of_ok
    have hclose' : body.close (c3.reporting source).source block = _ := BodyKind.close_ok_retold hclose source
    rw [readBlock.eq_def _ _ _ (c.reporting source), (Reader.nextLine_retold floor c).ok hnext source]
    simp only [(Reader.line_retold hnext reader done).ok hline source, hlength, hlt, if_true, hblock', hclose', hlt3]
    exact ih' hreader
  | case8 reader floor done c level t c1 hnext c2 hlt s location comments body block c3 hblock members hclose
      hstall hline ih =>
    exact absurd (block_advances hreader hnext hline hblock).2 hstall
  | case9 reader floor done c level t c1 hnext line c2 hline hstall =>
    exact absurd (line_advances hreader hnext hline).2 hstall

section

variable {reader : LineReader} {floor : Nat} {done : List Node} {c : Cursor} {failure : BlockFailure}
  (hreader : reader ≠ .idle) (h : readBlock reader floor done c = .error failure)
include hreader h

theorem source_of_readBlock : failure.cursor.source = c.source := by
  obtain ⟨stop', hsame, -⟩ := (h ▸ readBlock_retold c.source reader hreader floor done c).of_error
  exact congrArg (fun failure => failure.cursor.source) (Except.error.inj hsame)

end

end CirOutline
