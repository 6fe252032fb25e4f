import CirOutline.Proofs.Layout.Progress

/-!
Reading that fails. The outermost block is read in passes, and the failure comes from one of them, at
whatever depth. The passes before it do not depend on its tokens: read alone, the tokens before that
pass give the nodes that were complete at the failure.

The tokens are cut behind a line break, where a pass begins. A block that ended there in front of a
shallower line now ends with the input, so the two positions may differ in level and unit, but from
there on nothing is read.
-/

namespace CirOutline

open List

variable {c1 : Cursor} {failure : BlockFailure} {level : Nat} {line : Line} {rest : List Token} {t : Token}

/-! ### Blank lines -/

theorem dropBlankLines_wholeLines {y back : List Token}
    (h : dropBlankLines (y ++ back) = y ++ back) (hy : WholeLines y) : dropBlankLines y = y := by
  cases y with
  | nil => rfl
  | cons t y =>
    obtain ⟨hbreak, hnext⟩ := dropBlankLines_head h
    refine dropBlankLines_of_line hbreak fun hspaces => ?_
    cases y with
    | nil => exact absurd (hy t rfl) hbreak
    | cons u y =>
      obtain ⟨next, more, heq, hkind⟩ := hnext hspaces
      exact ⟨u, y, rfl, (List.cons.inj heq).1 ▸ hkind⟩

/-! ### The next line -/

namespace Reader

variable {c : Cursor} {floor : Nat}

/-- A line that is found depends on the tokens up to its first one. -/
theorem nextLine_some (h : nextLine floor c = .ok (some (level, t)) c1) :
    ∃ front more, c.rest = front ++ t :: more ∧ c1.rest = t :: more ∧ t.kind ≠ .lineBreak ∧ ∀ after,
      nextLine floor (c.withRest (front ++ t :: after)) = .ok (some (level, t)) (c1.withRest (t :: after)) := by
  have hsearch := nextLine_search floor c
  rw [h] at hsearch
  cases hsearch with
  | @found u t rest more level unit hdrop hindent hlevel hstart hkind =>
    have hbreak := (dropBlankLines_head hdrop).1
    obtain ⟨blank, hsplit, -, hended⟩ := dropBlankLines_blank c.rest
    rw [hdrop] at hsplit hended
    have hcut := (hended (by simp)).2
    by_cases hspaces : u.kind = .spaces
    · rw [ink_cons_of_spaces hspaces] at hstart
      obtain rfl : rest = t :: more := hstart
      refine ⟨blank ++ [u], more, by simp [hsplit], rfl, hkind, fun after => ?_⟩
      rw [append_assoc]
      have hline : dropBlankLines (c.withRest (blank ++ u :: t :: after)).rest = u :: t :: after :=
        (hcut _).trans (dropBlankLines_of_line hbreak fun _ => ⟨t, after, rfl, hkind⟩)
      exact nextLine_deep hline hindent hlevel (by rw [ink_cons_of_spaces hspaces]; rfl)
    · rw [ink_cons hspaces] at hstart
      obtain ⟨rfl, rfl⟩ := List.cons.inj hstart
      refine ⟨blank, _, hsplit, rfl, hkind, fun after => ?_⟩
      have hline : dropBlankLines (c.withRest (blank ++ u :: after)).rest = u :: after :=
        (hcut _).trans (dropBlankLines_of_line hbreak fun h => absurd h hspaces)
      exact nextLine_deep hline hindent hlevel (by rw [ink_cons hspaces]; rfl)

/-- That there is no line depends on the first token after the blank lines. -/
theorem nextLine_none (h : nextLine floor c = .ok none c1) : c1.rest = dropBlankLines c.rest ∧ ∀ tokens,
    (dropBlankLines tokens).head? = c1.rest.head? →
      nextLine floor (c.withRest tokens) = .ok none (c1.withRest (dropBlankLines tokens)) := by
  have hsearch := nextLine_search floor c
  rw [h] at hsearch
  cases hsearch with
  | ended hdrop =>
    refine ⟨hdrop.symm, fun tokens hhead => ?_⟩
    rw [head?_eq_none_iff.mp hhead]
    exact nextLine_nil (head?_eq_none_iff.mp hhead)
  | shallow hdrop hindent hlevel =>
    refine ⟨hdrop.symm, fun tokens hhead => ?_⟩
    obtain ⟨rest, htokens⟩ := head?_eq_some_iff.mp hhead
    rw [htokens]
    exact nextLine_back (c := c.withRest tokens) htokens hindent hlevel

end Reader

/-! ### Blocks -/

section Block

variable {reader : LineReader} {floor : Nat} {done nodes : List Node} {c c' d : Cursor}

/-- `d` stands where `c` stands, but the input ends after `y`. At its end they agree in the warnings
only. -/
structure CutAt (y : List Token) (c d : Cursor) : Prop where
  rest : d.rest = y
  warnings : d.journal.warnings .layout = c.journal.warnings .layout
  source : d.source = c.source
  same : y ≠ [] → d = c.withRest y

/-- From `c` to `c'` whole lines are read, and they are read alike when the input ends at a line break
after `c'` or right there. -/
def Cuts {α : Type} (read : Cursor → Except BlockFailure (α × Cursor)) (a : α) (c c' : Cursor) :
    Prop :=
  ∃ taken, c.rest = taken ++ c'.rest ∧ WholeLines taken ∧
    ∀ y back d, c'.rest = y ++ back → WholeLines y → CutAt (taken ++ y) c d →
      ∃ d', read d = .ok (a, d') ∧ CutAt y c' d'

theorem line_cut (hreader : reader ≠ .idle) (hnext : Reader.nextLine floor c = .ok (some (level, t)) c1)
    (hline : Reader.line reader t level done c1 = .ok line c') (hmore : c'.rest ≠ []) :
    ∃ taken, taken ≠ [] ∧ WholeLines taken ∧ c.rest = taken ++ c'.rest ∧ ∀ after, ∃ d,
      Reader.nextLine floor (c.withRest (taken ++ after)) = .ok (some (level, t)) d ∧
      Reader.line reader t level done d = .ok line (c'.withRest after) := by
  obtain ⟨front, more, hrest, hrest1, hkind, hfound⟩ := Reader.nextLine_some hnext
  obtain ⟨-, -, hread⟩ := (Reader.line_meets hreader hrest1 false nofun).exchange.ok hline
  obtain ⟨taken, stop, hstop, hsplit, hafter⟩ := hread hmore
  have hsource := (Reader.line_retold hnext reader done).source_eq hline
  cases taken with
  | nil => exact absurd ((List.cons.inj (hrest1.symm.trans hsplit)).1 ▸ hstop) hkind
  | cons first taken =>
    obtain ⟨rfl, rfl⟩ := List.cons.inj (hrest1.symm.trans hsplit)
    refine ⟨front ++ t :: taken ++ [stop], by simp, wholeLines_stop hstop _, by simp [hrest], ?_⟩
    intro after
    refine ⟨_, ?_, (hafter c1.source after).trans (by rw [← hsource]; rfl)⟩
    rw [append_assoc, append_assoc]
    exact hfound _

def BlocksCut (n : Nat) : Prop :=
  ∀ (reader : LineReader) (floor : Nat) (done nodes : List Node) (c c' : Cursor),
    reader ≠ .idle → c.rest.length < n →
    readBlock reader floor done c = .ok (nodes, c') → c'.rest ≠ [] →
    Cuts (readBlock reader floor done) nodes c c'

theorem BlocksCut.mono {n k : Nat} (h : BlocksCut n) (hk : k ≤ n) : BlocksCut k :=
  fun reader floor done nodes c c' hreader hlength =>
    h reader floor done nodes c c' hreader (Nat.lt_of_lt_of_le hlength hk)

theorem readPass_cut (hreader : reader ≠ .idle) (hblocks : BlocksCut c.rest.length)
    (h : readPass reader floor done c = .ok (some nodes, c')) (hmore : c'.rest ≠ []) :
    Cuts (readPass reader floor done) (some nodes) c c' := by
  rw [readPass] at h
  split at h
  · cases h
  · cases h
  next level t c1 hnext =>
  split at h
  · cases h
  · next new c2 hline =>
    cases h
    obtain ⟨taken, hne, hwhole, hrest, hafter⟩ := line_cut hreader hnext hline hmore
    refine ⟨taken, hrest, hwhole, fun y back d hy hwhole hd => ?_⟩
    obtain ⟨d1, hfound, hread⟩ := hafter y
    refine ⟨c'.withRest y, ?_, rfl, rfl, rfl, fun _ => rfl⟩
    rw [hd.same (by simp [hne]), readPass, hfound]
    simp only [hread]
  · next s location comments body c2 hline =>
    have hlt := (line_advances hreader hnext hline).2
    split at h
    · cases h
    next members c3 hblock =>
    split at h
    · cases h
    next closed hclose =>
    cases h
    obtain ⟨below, hbelow, hwhole2, hcut⟩ := hblocks body.reader (level + 1) comments _
      (c2.enter (level + 1)) c' body.reader_ne_idle hlt hblock hmore
    have hbelow : c2.rest = below ++ c'.rest := hbelow
    obtain ⟨taken, hne, hwhole, hrest, hafter⟩ :=
      line_cut hreader hnext hline (by simp [hbelow, hmore])
    refine ⟨taken ++ below, by rw [hrest, hbelow, append_assoc], hwhole.append hwhole2, ?_⟩
    intro y back d hy hwhole hd
    obtain ⟨d1, hfound, hread⟩ := hafter (below ++ y)
    obtain ⟨d3, hinner, hend⟩ := hcut y back ((c2.withRest (below ++ y)).enter (level + 1)) hy hwhole
      ⟨rfl, rfl, rfl, fun _ => rfl⟩
    refine ⟨d3, ?_, hend⟩
    rw [hd.same (by simp [hne]), readPass, append_assoc, hfound]
    simp only [hread, hinner, hend.source, hclose]

theorem pass_over_cut (reader : LineReader) (done : List Node)
    (hnext : Reader.nextLine floor c = .ok none c1) (hmore : c1.rest ≠ []) :
    Cuts (readBlock reader floor done) done c (c1.leave floor done.length) := by
  obtain ⟨-, -, -, hwarnings, -⟩ := Reader.Search.line hnext
  have hsource := (Reader.nextLine_retold floor c).source_eq hnext
  obtain ⟨hrest, hover⟩ := Reader.nextLine_none hnext
  obtain ⟨blank, hsplit, -, hended⟩ := dropBlankLines_blank c.rest
  rw [← hrest] at hsplit hended
  obtain ⟨hwhole, hdrop⟩ := hended hmore
  refine ⟨blank, hsplit, hwhole, fun y back d hy hwhole hd => ?_⟩
  have hy : c1.rest = y ++ back := hy
  have hfirst : dropBlankLines (blank ++ y) = y := by
    have hlines : dropBlankLines (y ++ back) = y ++ back := by
      rw [← hy, hrest, dropBlankLines_idem]
    rw [hdrop, dropBlankLines_wholeLines hlines hwhole]
  have hleave : ∀ d : Cursor, (d.leave floor done.length).journal.warnings .layout =
      d.journal.warnings .layout := fun d => warnings_append_of_nil rfl
  cases y with
  | nil =>
    have hnil : Reader.nextLine floor d = .ok none (d.withRest []) := by
      refine Reader.nextLine_nil ?_
      rw [hd.rest, hfirst]
    refine ⟨(d.withRest []).leave floor done.length, by rw [readBlock, hnil], rfl, ?_, hd.source.trans hsource.symm,
      fun h => absurd rfl h⟩
    rw [hleave, hleave, hwarnings]
    exact hd.warnings
  | cons t y =>
    have hagain := hover (blank ++ t :: y) (by rw [hfirst, hy]; rfl)
    rw [hfirst] at hagain
    refine ⟨(c1.withRest (t :: y)).leave floor done.length, ?_, rfl, rfl, rfl, fun _ => rfl⟩
    rw [hd.same (by simp), readBlock, hagain]

theorem readBlock_empty (h : c.rest = []) :
    readBlock reader floor done c = .ok (done, (c.withRest []).leave floor done.length) := by
  rw [readBlock, Reader.nextLine_nil (by rw [h]; rfl)]

/-- The last pass of a block: the nodes that are complete when it begins, and where it begins. -/
def lastPass (reader : LineReader) (floor : Nat) (done : List Node) (c : Cursor) :
    List Node × Cursor :=
  match readPass reader floor done c with
  | .ok (some nodes, c') =>
    if c'.rest.length < c.rest.length then lastPass reader floor (done ++ nodes) c' else (done, c)
  | _ => (done, c)
termination_by c.rest.length

theorem readBlock_lastPass (hreader : reader ≠ .idle) (floor : Nat) (done : List Node) :
    (∃ c', Reader.nextLine floor (lastPass reader floor done c).2 = .ok none c' ∧
      readBlock reader floor done c = .ok ((lastPass reader floor done c).1,
        c'.leave floor (lastPass reader floor done c).1.length)) ∨
    ∃ failure, readPass reader floor (lastPass reader floor done c).1
        (lastPass reader floor done c).2 = .error failure ∧
      readBlock reader floor done c = .error failure := by
  fun_induction lastPass reader floor done c with
  | case1 done c new c1 hpass hlt ih =>
    rw [readBlock_eq_passes hreader, hpass]
    exact ih
  | case2 done c new c1 hpass hlt =>
    exact absurd (readPass_advances hreader hpass).2 hlt
  | case3 done c hother =>
    rw [readBlock_eq_passes hreader]
    cases hpass : readPass reader floor done c with
    | error failure => exact .inr ⟨failure, rfl, rfl⟩
    | ok passed =>
      obtain ⟨_ | new, c'⟩ := passed
      · exact .inl ⟨c', nextLine_of_readPass hpass, rfl⟩
      · exact absurd hpass (hother new c')

theorem passes_cut (hreader : reader ≠ .idle) (hblocks : BlocksCut c.rest.length) (floor : Nat) (done : List Node)
    (hmore : (lastPass reader floor done c).2.rest ≠ []) :
    ∃ taken, c.rest = taken ++ (lastPass reader floor done c).2.rest ∧ WholeLines taken ∧
      ∀ y back d, (lastPass reader floor done c).2.rest = y ++ back → WholeLines y →
        CutAt (taken ++ y) c d → ∃ d', CutAt y (lastPass reader floor done c).2 d' ∧
          readBlock reader floor done d = readBlock reader floor (lastPass reader floor done c).1 d' := by
  fun_induction lastPass reader floor done c with
  | case1 done c new c1 hpass hlt ih =>
    obtain ⟨later, hlater, hwhole1, hcut1⟩ := ih (hblocks.mono hlt.le) hmore
    obtain ⟨taken, hrest, hwhole, hcut⟩ :=
      readPass_cut hreader hblocks hpass (by simp [hlater, hmore])
    refine ⟨taken ++ later, by rw [hrest, hlater, append_assoc], hwhole.append hwhole1, ?_⟩
    intro y back d hy hwholey hd
    have hsplit : c1.rest = later ++ y ++ back := by rw [hlater, hy, append_assoc]
    rw [append_assoc] at hd
    obtain ⟨d1, hfirst, hd1⟩ := hcut (later ++ y) back d hsplit (hwhole1.append hwholey) hd
    obtain ⟨d', hd', hread⟩ := hcut1 y back d1 hy hwholey hd1
    refine ⟨d', hd', ?_⟩
    rw [readBlock_eq_passes hreader, hfirst, ← hread]
    rfl
  | case2 done c new c1 hpass hlt =>
    exact absurd (readPass_advances hreader hpass).2 hlt
  | case3 done c hother => exact ⟨[], rfl, wholeLines_nil, fun y back d hy hwhole hd => ⟨d, hd, rfl⟩⟩

theorem blocksCut (n : Nat) : BlocksCut n := by
  induction n with
  | zero => exact fun _ _ _ _ _ _ _ h => absurd h (Nat.not_lt_zero _)
  | succ n ih =>
    intro reader floor done nodes c c' hreader hlength h hmore
    have hcut := passes_cut hreader (ih.mono (Nat.le_of_lt_succ hlength)) floor done
    rcases readBlock_lastPass hreader floor done with ⟨c2, hnext, hread⟩ | ⟨failure, -, hread⟩
    · cases h.symm.trans hread
      generalize lastPass reader floor done c = last at *
      obtain ⟨blank, hblank, hwhole1, hover⟩ := pass_over_cut reader last.1 hnext hmore
      have hblank : last.2.rest = blank ++ c2.rest := hblank
      have hmore : c2.rest ≠ [] := hmore
      obtain ⟨taken, hrest, hwhole, hcut⟩ := hcut (by simp [hblank, hmore])
      refine ⟨taken ++ blank, ?_, hwhole.append hwhole1, fun y back d hy hwholey hd => ?_⟩
      · exact hrest.trans (by rw [hblank, append_assoc]; rfl)
      · have hy : c2.rest = y ++ back := hy
        rw [append_assoc] at hd
        obtain ⟨d1, hd1, hsame⟩ := hcut (blank ++ y) back d
          (by rw [hblank, hy, append_assoc]) (hwhole1.append hwholey) hd
        rw [hsame]
        exact hover y back d1 hy hwholey hd1
    · cases h.symm.trans hread

/-! ### Failures -/

theorem readPass_built (h : readPass reader floor done c = .error failure) : failure.built = done := by
  rw [readPass] at h
  split at h
  · cases h
    rfl
  · cases h
  · split at h
    · cases h
      rfl
    · cases h
    · split at h
      · cases h
        rfl
      · split at h <;> cases h
        rfl

theorem readBlock_before_failure (hreader : reader ≠ .idle) (hfilled : Filled c.rest)
    (h : readBlock reader floor done c = .error failure) :
    ∃ taken c', c.rest = taken ++ c'.rest ∧ lastPass reader floor done c = (failure.built, c') ∧
      readPass reader floor failure.built c' = .error failure ∧
      (∀ d, CutAt taken c d → ∃ d', readBlock reader floor done d = .ok (failure.built, d') ∧
        d'.journal.warnings .layout = c'.journal.warnings .layout) ∧
      c'.journal <+: failure.cursor.journal := by
  have hcut := passes_cut hreader (blocksCut c.rest.length) floor done
  rcases readBlock_lastPass (c := c) hreader floor done with ⟨c2, -, hread⟩ | ⟨stopped, hpass, hread⟩
  · cases h.symm.trans hread
  · cases h.symm.trans hread
    have hbuilt := readPass_built hpass
    generalize lastPass reader floor done c = last at *
    obtain ⟨built, c'⟩ := last
    obtain rfl : failure.built = built := hbuilt
    have hmore : c'.rest ≠ [] := by
      intro hnil
      rw [readPass, Reader.nextLine_nil (by rw [hnil]; rfl)] at hpass
      cases hpass
    obtain ⟨taken, hrest, hwhole, hcut⟩ := hcut hmore
    have hrest : c.rest = taken ++ c'.rest := hrest
    have hfilled' : Filled c'.rest := hfilled.of_suffix ⟨taken, hrest.symm⟩
    have hends := readBlock_blockEnds reader floor failure.built c' hreader hfilled'
    rw [readBlock_eq_passes hreader, hpass] at hends
    refine ⟨taken, c', hrest, rfl, hpass, fun d hd => ?_, hends.1⟩
    obtain ⟨d', hd', hsame⟩ := hcut [] c'.rest d rfl wholeLines_nil (by rwa [append_nil])
    refine ⟨_, hsame.trans (readBlock_empty hd'.rest), ?_⟩
    exact (warnings_append_of_nil rfl).trans hd'.warnings

end Block

/-! ### Programs -/

theorem Journal.warnings_prefix {a b : Journal} (h : a <+: b) (stage : Stage) :
    a.warnings stage <+: b.warnings stage := (h.filter _).map _

theorem BlockFailure.journal_toProgramFailure (failure : BlockFailure) :
    failure.cursor.journal <+: failure.toProgramFailure.cursor.journal := by
  rw [toProgramFailure]
  split
  · exact prefix_append _ _
  · exact prefix_rfl

/-- A program that cannot be read leaves what was complete. The tokens before the last pass of its
outermost block, the one that fails, are a program by themselves: it has the nodes that were built at
the failure, and its warnings are the first of those that were made until then. -/
theorem tokens_before_failure_read (tokens : List Token) (file : String) (lines : List String)
    (failure : ProgramFailure) (hspaces : ∀ t ∈ tokens, t.kind = .spaces → t.raw ≠ "")
    (hfails : readProgram tokens file lines = .error failure) :
    ∃ before c, tokens = before ++ c.rest ∧
      lastPass .statements 0 [] ((Cursor.start tokens file lines).enter 0) = (failure.built, c) ∧
      (∃ block, readPass .statements 0 failure.built c = .error block ∧
        failure = block.toProgramFailure) ∧
      ∀ file lines, ∃ program, readProgram before file lines = .ok program ∧
        program.nodes = failure.built ∧
        program.journal.warnings .layout <+: failure.cursor.journal.warnings .layout := by
  obtain ⟨block, hblock, rfl⟩ := readProgram_fails hfails
  obtain ⟨before, c, hsplit, hlast, hpass, hread, hgrown⟩ :=
    readBlock_before_failure (by simp) (filled_of_ne hspaces) hblock
  refine ⟨before, c, hsplit, hlast, ⟨block, hpass, rfl⟩, fun file' lines' => ?_⟩
  obtain ⟨d, hok, hwarnings⟩ := hread (((Cursor.start tokens file lines).enter 0).withRest before)
    ⟨rfl, rfl, rfl, fun _ => rfl⟩
  -- the tokens before are a source of their own, which ends earlier
  have hretold := readBlock_retold (.ofTokens before file' lines') .statements (by simp) 0 []
    (((Cursor.start tokens file lines).enter 0).withRest before)
  rw [hok] at hretold
  have hown : readBlock .statements 0 [] ((Cursor.start before file' lines').enter 0) = _ := hretold.of_ok
  refine ⟨⟨block.built, d.unit, d.journal⟩, by rw [readProgram, readTokens, hown]; rfl, rfl, ?_⟩
  rw [hwarnings]
  exact Journal.warnings_prefix (hgrown.trans block.journal_toProgramFailure) .layout

/-- A line with a warning, and a method whose body begins with a branch. -/
def danglingTokens : List Token :=
  [⟨.keyword, "pass", ⟨"d.cir", 1, 1⟩⟩, ⟨.lineBreak, "\n", ⟨"d.cir", 1, 5⟩⟩,
    ⟨.keyword, "METHOD", ⟨"d.cir", 2, 1⟩⟩, ⟨.word, "m", ⟨"d.cir", 2, 8⟩⟩,
    ⟨.colon, ":", ⟨"d.cir", 2, 9⟩⟩, ⟨.lineBreak, "\n", ⟨"d.cir", 2, 10⟩⟩,
    ⟨.spaces, "  ", ⟨"d.cir", 3, 1⟩⟩, ⟨.keyword, "else", ⟨"d.cir", 3, 3⟩⟩,
    ⟨.colon, ":", ⟨"d.cir", 3, 7⟩⟩]

theorem danglingTokens_before_failure_read :
    (∀ t ∈ danglingTokens, t.kind = .spaces → t.raw ≠ "") ∧
      ∃ failure, readProgram danglingTokens "d.cir" [] = .error failure ∧
        ∃ program, readProgram (danglingTokens.take 2) "d.cir" [] = .ok program ∧
          program.nodes = failure.built ∧
          program.journal.warnings .layout <+: failure.cursor.journal.warnings .layout := by
  have hspaces : ∀ t ∈ danglingTokens, t.kind = .spaces → t.raw ≠ "" := by decide
  have hfails : (readProgram danglingTokens "d.cir" []).toOption.isNone = true := by decide +kernel
  have hstart : (lastPass .statements 0 [] ((Cursor.start danglingTokens "d.cir" []).enter 0)).2.rest.length = 7 := by
    decide +kernel
  cases hread : readProgram danglingTokens "d.cir" [] with
  | ok program =>
    rw [hread] at hfails
    cases hfails
  | error failure =>
    obtain ⟨before, c, hsplit, hlast, -, hbefore⟩ :=
      tokens_before_failure_read danglingTokens "d.cir" [] failure hspaces hread
    rw [hlast] at hstart
    have hlength : before.length = 2 := by
      have h := congrArg List.length hsplit
      rw [length_append, hstart] at h
      exact Nat.add_right_cancel h.symm
    have htake : danglingTokens.take 2 = before := by
      rw [hsplit, take_left' hlength]
    rw [htake]
    exact ⟨hspaces, failure, rfl, hbefore "d.cir" []⟩

end CirOutline
