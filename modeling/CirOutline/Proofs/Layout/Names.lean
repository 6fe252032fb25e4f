import CirOutline.Proofs.Layout.Statements

/-!
The names of a program that was read. The parts of a statement that its line spells out have the form
of tokens: names are words, items are words or numbers, and captured runs hold tokens of the text. The
names with which lines of C start are moreover no keywords. A word can spell a keyword only where a
letter beyond ASCII follows directly, and then another keyword follows, which no name allows.
-/

namespace CirOutline

open LexicalRule List Text

variable {c : Char} {l : SourceLine} {width : Nat} {source file : String} {tokens : List Token}
  {cs : List Char} {t : Token} {s : Statement}

/-! ### Words that spell keywords -/

namespace LexicalRule

theorem keywordWidth_of_word (h : firstMatch? cs = some (.word, width)) : keywordWidth cs = 0 := by
  by_contra hwidth
  have hfound : table.find? (fun rule => rule.width cs != 0) = some ⟨.keyword, keywordWidth⟩ :=
    find?_cons_of_pos (by simpa using hwidth)
  rw [firstMatch?, hfound] at h
  cases h

theorem firstWidth_ne_zero {widths : List Nat} (hmem : width ∈ widths) (h : width ≠ 0) :
    firstWidth widths ≠ 0 := by
  induction widths with
  | nil => exact absurd hmem not_mem_nil
  | cons first widths ih =>
    rw [firstWidth]
    split_ifs with hzero
    · rcases mem_cons.mp hmem with rfl | hmem
      · exact absurd (beq_iff_eq.mp hzero) h
      · exact ih hmem
    · simpa using hzero

theorem not_atBoundary_of_word (h : firstMatch? cs = some (.word, width))
    (hreserved : TokenKind.keyword.Lexeme (cs.take width)) :
    atBoundary (cs.drop width) = false := by
  obtain ⟨k, hletters⟩ := hreserved
  rw [Bool.eq_false_iff]
  intro hend
  have hlength : width = k.spelling.toList.length ∨ cs.length < width := by
    rw [← hletters, length_map, length_take]
    omega
  have htake : cs.take k.spelling.toList.length = cs.take width := by
    rcases hlength with hwidth | hlong
    · rw [hwidth]
    · rw [← hletters, length_map, length_take, take_of_length_le, take_of_length_le] <;>
        omega
  have hdrop : cs.drop k.spelling.toList.length = cs.drop width := by
    rcases hlength with hwidth | hlong
    · rw [hwidth]
    · rw [← hletters, length_map, length_take, drop_eq_nil_of_le, drop_eq_nil_of_le] <;>
        omega
  have hword : wholeWord keywordLetter k.spelling cs ≠ 0 := by
    have hmatch : ((cs.take k.spelling.toList.length).map keywordLetter == k.spelling.toList &&
        atBoundary (cs.drop k.spelling.toList.length)) = true := by
      rw [htake, hdrop, hletters, hend]
      simp
    rw [wholeWord, if_pos hmatch]
    cases k <;> decide
  have hmem : wholeWord keywordLetter k.spelling cs ∈
      Keyword.all.map fun keyword => wholeWord keywordLetter keyword.spelling cs :=
    mem_map_of_mem (by cases k <;> decide)
  exact firstWidth_ne_zero hmem hword (keywordWidth_of_word h)

theorem code_of_foreign (hword : isWordChar c = true) (hname : continuesName c = false) : 0xAA ≤ c.toNat := by
  rw [continuesName, Bool.or_eq_false_iff] at hname
  obtain ⟨hletter, hline⟩ := hname
  rw [isWordChar, hline, Bool.false_or] at hword
  unfold Char.isAlphanum Char.isAlpha Char.isUpper Char.isLower Char.isDigit at hletter
  simp only [Bool.or_eq_false_iff, Bool.and_eq_false_iff, decide_eq_false_iff_not,
    UInt32.le_iff_toNat_le] at hletter
  change (¬ (65 ≤ c.toNat ∧ c.toNat ≤ 90) ∧ (¬ 97 ≤ c.toNat ∨ ¬ c.toNat ≤ 122)) ∧
    (¬ 48 ≤ c.toNat ∨ ¬ c.toNat ≤ 57) at hletter
  -- the runs up to there are the digits, the capital and the small letters
  obtain ⟨later, hruns⟩ : ∃ later, alphanumericRuns = 48 :: 10 :: 7 :: 26 :: 6 :: 26 :: 47 :: later :=
    ⟨_, rfl⟩
  rw [isAlphanumeric, CodeRuns.has, hruns] at hword
  simp only [CodeRuns.hasCode] at hword
  split_ifs at hword <;> try omega
  cases later with
  | nil => cases hword
  | cons inside later =>
    rw [CodeRuns.hasCode] at hword
    split_ifs at hword <;> omega

theorem kind_of_foreign {rest : List Char} {kind : TokenKind} (hword : isWordChar c = true)
    (hname : continuesName c = false) (h : firstMatch? (c :: rest) = some (kind, width)) : kind = .keyword := by
  have hcode := code_of_foreign hword hname
  obtain ⟨hwidth, hlexeme, hspells, -⟩ := firstMatch?_sound h
  obtain ⟨n, rfl⟩ := Nat.exists_eq_succ_of_ne_zero hwidth
  rw [take_succ_cons] at hspells hlexeme
  -- every symbol but one is in ASCII, and the arrow is no word character
  have hsymbol : ∀ texts : List String, (texts.all fun text => text.toList.head?.all fun d =>
      d.toNat < 0xAA || d == '→') = true → String.ofList (c :: rest.take n) ∉ texts := by
    intro texts hall hmem
    have hfirst := all_eq_true.mp hall _ hmem
    simp only [String.toList_ofList, head?_cons, Option.all_some, Bool.or_eq_true,
      decide_eq_true_eq, beq_iff_eq] at hfirst
    rcases hfirst with hfirst | rfl
    · omega
    · exact absurd hword (by decide +kernel)
  cases kind with
  | keyword => rfl
  | word =>
    obtain ⟨d, more, hcs, hd, -⟩ := hlexeme
    obtain ⟨rfl, -⟩ := List.cons.inj hcs
    rw [startsName, Bool.or_eq_true] at hd
    rw [continuesName, Bool.or_eq_false_iff, Char.isAlphanum, Bool.or_eq_false_iff] at hname
    simp [hname] at hd
  | number =>
    obtain ⟨d, more, hcs, hd, -⟩ := hlexeme
    obtain ⟨rfl, -⟩ := List.cons.inj hcs
    rw [continuesName, Bool.or_eq_false_iff, Char.isAlphanum, Bool.or_eq_false_iff] at hname
    rw [hname.1.2] at hd
    cases hd
  | comment =>
    obtain ⟨more, hcs⟩ := hlexeme
    obtain ⟨rfl, -⟩ := List.cons.inj hcs
    exact absurd hcode (by decide)
  | spaces =>
    have hgap := hspells c mem_cons_self
    simp only [Scan.isGap, Bool.or_eq_true, beq_iff_eq] at hgap
    rcases hgap with rfl | rfl <;> exact absurd hcode (by decide)
  | lineBreak =>
    have hbreak := hspells c mem_cons_self
    simp only [Scan.isBreak, Bool.or_eq_true, beq_iff_eq] at hbreak
    rcases hbreak with rfl | rfl <;> exact absurd hcode (by decide)
  | _ => exact absurd hlexeme (hsymbol _ (by decide))

end LexicalRule

theorem LexicalRule.continuesName_after (h : firstMatch? cs = some (.word, width)) :
    ∀ d ∈ (cs.drop width).head?, continuesName d = false := by
  obtain ⟨rule, hfound, hrule⟩ := Option.map_eq_some_iff.mp h
  obtain ⟨hkind, rfl⟩ := Prod.mk.inj hrule
  have hwidth : rule.width cs ≠ 0 := by simpa using find?_some hfound
  have hmem := mem_of_find?_eq_some hfound
  obtain rfl : rule = ⟨.word, nameWidth⟩ := by
    simp only [table, mem_cons, not_mem_nil, or_false] at hmem
    rcases hmem with rfl | rfl | rfl | rfl | rfl | rfl | rfl | rfl | rfl | rfl | rfl | rfl | rfl | rfl <;>
      first | rfl | cases hkind
  change nameWidth cs ≠ 0 at hwidth
  change ∀ d ∈ (cs.drop (nameWidth cs)).head?, _
  unfold nameWidth at hwidth ⊢
  cases cs with
  | nil => exact absurd rfl hwidth
  | cons c rest =>
    simp only at hwidth ⊢
    split_ifs at hwidth ⊢ with hstart
    · rw [Nat.add_comm, drop_succ_cons]
      exact (run_sound continuesName rest).2
    · exact absurd rfl hwidth

theorem Scan.tokensFrom_reserved (l : Location) (cs : List Char) :
    (tokensFrom l cs).2 = none → ∀ before t after, (tokensFrom l cs).1 = before ++ t :: after →
      t.kind = .word → TokenKind.keyword.Lexeme t.raw.toList → ∃ u ∈ after.head?, u.kind = .keyword := by
  fun_induction tokensFrom l cs with
  | case1 | case2 | case3 => simp
  | case4 l c rest kind width hmatch lexeme hplain tokens problem hrest ih =>
    rw [hrest] at ih
    intro hproblem before t after htokens hkind hreserved
    cases before with
    | cons first before =>
      obtain ⟨-, htokens⟩ := List.cons.inj htokens
      exact ih hproblem before t after htokens hkind hreserved
    | nil =>
      obtain ⟨rfl, rfl⟩ := List.cons.inj htokens
      obtain rfl : kind = .word := hkind
      obtain ⟨n, rfl⟩ := Nat.exists_eq_succ_of_ne_zero (firstMatch?_sound hmatch).1
      rw [String.toList_ofList] at hreserved
      have hboundary : atBoundary ((c :: rest).drop (n + 1)) = false :=
        not_atBoundary_of_word hmatch hreserved
      have hname := continuesName_after hmatch
      rw [drop_succ_cons] at hboundary hname
      rw [Nat.succ_sub_one] at hrest
      cases hnext : rest.drop n with
      | nil =>
        rw [hnext] at hboundary
        cases hboundary
      | cons d more =>
        rw [hnext] at hboundary hname hrest
        have hword : isWordChar d = true := by simpa [atBoundary] using hboundary
        unfold tokensFrom at hrest
        split at hrest
        · cases hrest
          cases hproblem
        · next kind width hmatch' =>
          obtain rfl := kind_of_foreign hword (hname d rfl) hmatch'
          dsimp only at hrest
          split_ifs at hrest
          · cases hrest
            cases hproblem
          · obtain ⟨rfl, -⟩ := Prod.mk.inj hrest
            exact ⟨_, rfl, rfl⟩

theorem tokenize_reserved (h : tokenize source file = .ok tokens) {before after : List Token}
    (htokens : tokens = before ++ t :: after) (hkind : t.kind = .word)
    (hreserved : TokenKind.keyword.Lexeme t.raw.toList) : ∃ u ∈ after.head?, u.kind = .keyword := by
  have hscan := Scan.tokensFrom_reserved ⟨file, 1, 1⟩ source.toList
  rw [tokenize] at h
  split at h
  · next found hfound =>
    obtain rfl := Except.ok.inj h
    rw [hfound] at hscan
    exact hscan rfl before t after htokens hkind hreserved
  · cases h

/-! ### The parts of statements -/

/-- A token with a text of the form of its class. -/
structure Token.Formed (t : Token) : Prop where
  lexeme : t.kind.Lexeme t.raw.toList
  spells : t.kind.Spells t.raw.toList

theorem tokenize_formed (h : tokenize source file = .ok tokens) :
    ∀ t ∈ tokens, t.Formed := fun t ht =>
  ⟨tokenize_lexeme h t ht, ((tokenize_tokenized h).spelled t ht).2⟩

def Mark.Lexical : Mark → Prop
  | word text => TokenKind.word.Lexeme text.toList
  | item text => TokenKind.word.Lexeme text.toList ∨ TokenKind.number.Lexeme text.toList
  | remark text => ∀ c ∈ text.toList, Scan.isBreak c = false
  | copy t => t.kind.Lexeme t.raw.toList
  | _ => True

/-- What the line of a statement spells out has the form of tokens. -/
def Statement.Lexical (s : Statement) : Prop :=
  ∃ loose, ∀ mark ∈ Mark.ink (s.marks loose), mark.Lexical

def Statement.Unreserved : Statement → Prop
  | assignment name _ | structType name => ¬ TokenKind.keyword.Lexeme name.toList
  | _ => True

theorem Mark.Fits.lexical {mark : Mark} (h : mark.Fits t) (ht : t.Formed) : mark.Lexical := by
  obtain ⟨hlexeme, hspells⟩ := ht
  cases mark with
  | word text =>
    obtain ⟨hkind, rfl⟩ := h
    rw [hkind] at hlexeme
    exact hlexeme
  | item text =>
    obtain ⟨hkind | hkind, rfl⟩ := h
    · rw [hkind] at hlexeme
      exact .inl hlexeme
    · rw [hkind] at hlexeme
      exact .inr hlexeme
  | remark text =>
    obtain ⟨hkind, rfl⟩ := h
    rw [hkind] at hspells
    exact hspells.1
  | copy u =>
    simp only [Fits, Token.agrees, Bool.and_eq_true, beq_iff_eq] at h
    rw [h.1, h.2] at hlexeme
    exact hlexeme
  | _ => trivial

theorem Statement.Spelled.lexical {ts : List Token} (h : s.Spelled ts) (hts : ∀ t ∈ ts, t.Formed) : s.Lexical := by
  obtain ⟨loose, hfits⟩ := h
  refine ⟨loose, ?_⟩
  generalize Mark.ink (s.marks loose) = marks at hfits
  induction hfits with
  | nil => simp
  | @cons mark t marks ts hfirst _ ih =>
    rw [forall_mem_cons] at hts ⊢
    exact ⟨hfirst.lexical hts.1, ih hts.2⟩

theorem Statement.Lexical.marks (h : s.Lexical) :
    ∃ loose, ∀ mark ∈ s.marks loose, mark.isGap = false → mark.Lexical := by
  obtain ⟨loose, hmarks⟩ := h
  exact ⟨loose, fun mark hmem hgap => hmarks mark (mem_filter.mpr ⟨hmem, by simp [hgap]⟩)⟩

theorem Mark.mem_items (loose : Bool) {names : List String} {name : String} (h : name ∈ names) :
    Mark.item name ∈ Mark.items loose names := by
  have hmore : ∀ names : List String, name ∈ names → Mark.item name ∈ Mark.moreItems loose names := by
    intro names h
    induction names with
    | nil => cases h
    | cons first names ih =>
      rcases mem_cons.mp h with rfl | h
      · simp [moreItems]
      · simp [moreItems, ih h]
  cases names with
  | nil => cases h
  | cons first names =>
    rcases mem_cons.mp h with rfl | h
    · exact mem_cons_self
    · exact mem_cons_of_mem _ (hmore names h)

theorem Mark.parameter_subset {ps : List Parameter} {p : Parameter} (h : p ∈ ps) :
    Mark.parameter p ⊆ Mark.parameters ps := by
  intro mark hmark
  cases ps with
  | nil => cases h
  | cons first ps =>
    rcases mem_cons.mp h with rfl | h
    · exact mem_append_left _ hmark
    · refine mem_append_right _ (mem_flatMap.mpr ⟨p, h, ?_⟩)
      exact mem_cons_of_mem _ (mem_cons_of_mem _ hmark)

theorem unreserved_of_ink {t u : Token} (htokens : tokenize source file = .ok tokens) (hl : l <:+: tokens)
    (xs ys : List Token) (hink : Token.ink l = xs ++ t :: u :: ys) (hkind : t.kind = .word)
    (hnext : u.kind ≠ .keyword) :
    ¬ TokenKind.keyword.Lexeme t.raw.toList := by
  intro hreserved
  obtain ⟨first, last, rfl, -, hlast⟩ := filter_eq_append_iff.mp hink
  obtain ⟨gap, rest, rfl, -, -, hrest⟩ := filter_eq_cons_iff.mp hlast
  obtain ⟨before, after, hsplit⟩ := hl
  have hplace : tokens = (before ++ first ++ gap) ++ t :: (rest ++ after) := by
    rw [← hsplit]
    simp
  obtain ⟨v, hv, hkeyword⟩ := tokenize_reserved htokens hplace hkind hreserved
  cases rest with
  | nil => cases hrest
  | cons w rest =>
    obtain rfl : w = v := by simpa using hv
    have hsolid : w.kind ≠ .spaces := by simp [hkeyword]
    rw [show List.filter _ (w :: rest) = Token.ink (w :: rest) from rfl, ink_cons hsolid] at hrest
    exact hnext ((List.cons.inj hrest).1 ▸ hkeyword)

theorem Statement.Spelled.unreserved {run : List Token} (h : s.Spelled (Token.ink run))
    (htokens : tokenize source file = .ok tokens) (hrun : run <:+: tokens) : s.Unreserved := by
  obtain ⟨loose, hfits⟩ := h
  generalize hink : Token.ink run = ts at hfits
  cases s with
  | assignment name expression =>
    obtain ⟨t, ts1, hword, hfits1, rfl⟩ := forall₂_cons_left_iff.mp hfits
    obtain ⟨u, ts2, hequals, -, rfl⟩ := forall₂_cons_left_iff.mp hfits1
    obtain ⟨hkind, rfl⟩ := hword
    have hnext : u.kind = .setEquals := hequals
    exact unreserved_of_ink htokens hrun [] ts2 hink hkind (by simp [hnext])
  | structType name =>
    obtain ⟨k, ts1, -, hfits1, rfl⟩ := forall₂_cons_left_iff.mp hfits
    obtain ⟨t, ts2, hword, hfits2, rfl⟩ := forall₂_cons_left_iff.mp hfits1
    obtain ⟨u, ts3, hcolon, -, rfl⟩ := forall₂_cons_left_iff.mp hfits2
    obtain ⟨hkind, rfl⟩ := hword
    have hnext : u.kind = .colon := hcolon
    exact unreserved_of_ink htokens hrun [k] ts3 hink hkind (by simp [hnext])
  | _ => trivial

/-- What the statements of a program spell out has the form of tokens, and the names with which lines
of C start are no keywords. -/
theorem readProgram_names {lines : List String} {program : Program}
    (htokens : tokenize source file = .ok tokens) (h : readProgram tokens file lines = .ok program) :
    ∀ s ∈ Node.statements program.nodes, s.Lexical ∧ s.Unreserved := by
  intro s hs
  obtain ⟨run, hrun, hspelled⟩ := readProgram_spelled h s hs
  refine ⟨hspelled.lexical fun t ht => ?_, hspelled.unreserved htokens hrun⟩
  exact tokenize_formed htokens t (hrun.subset (mem_of_mem_filter ht))

end CirOutline
