import CirOutline.Proofs.Compilation
import CirOutline.Proofs.SourceQuotation
import CirOutline.Proofs.Token.Placement

/-!
The line that a report quotes. Places count lines by carriage returns and line feeds, but the lines that
are quoted come from a division of the text that also breaks at other separators. The two agree on the
lines in front of the first such separator.
-/

namespace CirOutline

variable {c : Char} {cs : List Char}

open Scan
open List hiding after

namespace Text

/-- The lines between the line ends that places count: a carriage return, a line feed, or both. -/
def countedLines : List Char → List (List Char)
  | [] => []
  | '\r' :: '\n' :: rest => [] :: countedLines rest
  | c :: rest =>
    if isBreak c then [] :: countedLines rest
    else (c :: (countedLines rest).headD []) :: (countedLines rest).tail

theorem endsTextLine_of_isBreak (h : isBreak c = true) : endsTextLine c = true := by
  rcases Bool.or_eq_true_iff.mp h with h | h <;> obtain rfl := beq_iff_eq.mp h <;> decide

theorem take_lineChars {n : Nat} (h : ∀ line ∈ (countedLines cs).take n, ∀ c ∈ line, endsTextLine c = false) :
    (lineChars cs).take n = (countedLines cs).take n := by
  fun_induction countedLines cs generalizing n with
  | case1 => rfl
  | case2 rest ih =>
    cases n with
    | zero => rfl
    | succ n =>
      rw [take_succ_cons, forall_mem_cons] at h
      rw [lineChars, take_succ_cons, take_succ_cons, ih h.2]
  | case3 c rest hpair hbreak ih =>
    cases n with
    | zero => rfl
    | succ n =>
      rw [take_succ_cons, forall_mem_cons] at h
      rw [lineChars.eq_3 _ _ hpair, if_pos (endsTextLine_of_isBreak hbreak), take_succ_cons,
        take_succ_cons, ih h.2]
  | case4 c rest hpair hbreak ih =>
    cases n with
    | zero => rfl
    | succ n =>
      rw [take_succ_cons, forall_mem_cons, forall_mem_cons] at h
      have hrest : (lineChars rest).take (n + 1) = (countedLines rest).take (n + 1) := by
        refine ih ?_
        cases hlines : countedLines rest with
        | nil => simp
        | cons line more => simpa [hlines] using And.intro h.1.2 h.2
      rw [lineChars.eq_3 _ _ hpair, if_neg (by simp [h.1.1])]
      cases hlines : countedLines rest <;> cases htext : lineChars rest <;> simp_all

/-! ### The character under the caret -/

theorem lineEndsBefore_cons (c : Char) (cs : List Char) (offset : Nat) : lineEndsBefore (c :: cs) (offset + 1) =
      lineEndsBefore cs offset + if endsLineAt (c :: cs) 0 then 1 else 0 := by
  rw [lineEndsBefore, range_succ_eq_map, countP_cons, countP_map]
  rfl

theorem sinceLineEnd_cons (c : Char) (cs : List Char) (offset : Nat) : sinceLineEnd (c :: cs) (offset + 1) =
      sinceLineEnd cs offset + if lineEndsBefore (c :: cs) (offset + 1) = 0 then 1 else 0 := by
  induction offset with
  | zero =>
    rw [sinceLineEnd_succ, lineEndsBefore_cons]
    cases endsLineAt (c :: cs) 0 <;> simp [sinceLineEnd, lineEndsBefore]
  | succ offset ih =>
    have hnext : endsLineAt (c :: cs) (offset + 1) = endsLineAt cs offset := rfl
    rw [sinceLineEnd_succ, ih, sinceLineEnd_succ, hnext, lineEndsBefore_cons c cs (offset + 1),
      lineEndsBefore_cons c cs offset, lineEndsBefore_add cs offset 1]
    cases hend : endsLineAt cs offset with
    | true => simp [hend]
    | false =>
      simp [hend]
      omega

theorem getElem?_countedLines {offset : Nat} (hc : cs[offset]? = some c) (hplain : isBreak c = false) :
    ((countedLines cs)[lineEndsBefore cs offset]?.bind fun row => row[sinceLineEnd cs offset]?) = some c := by
  fun_induction countedLines cs generalizing offset with
  | case1 => simp at hc
  | case2 rest ih =>
    have hends : endsLineAt ('\r' :: '\n' :: rest) 0 = false ∧ endsLineAt ('\n' :: rest) 0 = true := by
      simp [endsLineAt]
    obtain _ | _ | offset := offset
    · obtain rfl := Option.some.inj hc
      cases hplain
    · obtain rfl := Option.some.inj hc
      cases hplain
    · have hrest : rest[offset]? = some c := by simpa using hc
      have hfound := ih hrest
      simpa [sinceLineEnd_cons, lineEndsBefore_cons, hends] using hfound
  | case3 d rest hpair hbreak ih =>
    have hends : endsLineAt (d :: rest) 0 = true := by
      refine endsLineAt_of_break hbreak fun hd hnext => ?_
      obtain ⟨more, rfl⟩ := head?_eq_some_iff.mp hnext
      exact hpair more hd rfl
    obtain _ | offset := offset
    · obtain rfl := Option.some.inj hc
      exact Bool.noConfusion (hbreak.symm.trans hplain)
    · have hrest : rest[offset]? = some c := by simpa using hc
      have hfound := ih hrest
      simpa [sinceLineEnd_cons, lineEndsBefore_cons, hends] using hfound
  | case4 d rest hpair hbreak ih =>
    have hplainHead : ∀ x ∈ [d], isBreak x = false := by simpa using hbreak
    have hends : endsLineAt (d :: rest) 0 = false :=
      endsLineAt_of_line hplainHead rest (Nat.zero_lt_succ _)
    obtain _ | offset := offset
    · simpa [lineEndsBefore, sinceLineEnd] using hc
    · have hrest : rest[offset]? = some c := by simpa using hc
      have hfound := ih hrest
      rw [sinceLineEnd_cons, lineEndsBefore_cons, hends]
      -- the line of the first character is one longer, the others are as they were
      cases hline : lineEndsBefore rest offset with
      | zero =>
        cases hlines : countedLines rest with
        | nil => simp [hline, hlines] at hfound
        | cons line more => simpa [hline, hlines] using hfound
      | succ line => simpa [hline] using hfound

end Text

/-- Where no other separator stands in the lines up to the place of a report, the line it quotes is the
one that the place counts, and the caret is under the character there. -/
theorem compile_quotes_counted_line {options : Options} {source file line : String} {d : Diagnostic}
    {location : Location} (h : (compile options source file).2 = .error (.reported (.diagnosed d)))
    (hlocation : d.location = some location) (hcontext : d.context = some line)
    (hplain : ∀ text ∈ (Text.countedLines source.toList).take location.line.toNat,
      ∀ c ∈ text, Text.endsTextLine c = false) :
    0 < location.line ∧
    (Text.countedLines source.toList)[(location.line - 1).toNat]? = some line.toList ∧
    (∃ headline advice, d.reportLines = headline :: ("    " ++ line) ::
      (if location.column > 0 then [Diagnostic.caret location.column] else []) ++ advice) ∧
    ∀ offset c, Text.placeAt file source.toList offset = location → source.toList[offset]? = some c →
      isBreak c = false →
        ("    " ++ line).toList[(Diagnostic.caret location.column).toList.length - 1]? = some c := by
  have hquoted := compile_context h hcontext
  rw [hlocation, Option.bind_some, Text.lineAt?] at hquoted
  split_ifs at hquoted with hnumber
  have hfound : (Text.countedLines source.toList)[(location.line - 1).toNat]? = some line.toList := by
    have hindex : (location.line - 1).toNat < location.line.toNat := by omega
    rw [Text.lines, getElem?_map, Option.map_eq_some_iff] at hquoted
    obtain ⟨text, htext, rfl⟩ := hquoted
    rw [← getElem?_take_of_lt hindex, Text.take_lineChars hplain, getElem?_take_of_lt hindex] at htext
    rw [htext, String.toList_ofList]
  refine ⟨by omega, hfound, ?_, fun offset c hplace hc hbreak => ?_⟩
  · obtain ⟨headline, advice, hreport, -⟩ := d.reportLines_eq_insert
    rw [Diagnostic.quotation, hcontext, hlocation] at hreport
    exact ⟨headline, advice, hreport⟩
  · have hchar := Text.getElem?_countedLines hc hbreak
    have hline : (location.line - 1).toNat = Text.lineEndsBefore source.toList offset := by
      simp only [← hplace, Text.placeAt]
      omega
    have hcaret : (Diagnostic.caret location.column).toList.length - 1 =
        4 + Text.sinceLineEnd source.toList offset := by
      simp [← hplace, Text.placeAt, Diagnostic.caret]
      omega
    rw [← hline, hfound, Option.bind_some] at hchar
    rw [hcaret, String.toList_append, getElem?_append_right (by simp)]
    simpa using hchar

theorem compile_quotes_counted_line_of_word :
    ∃ d, (compile {} "// a\nx" "<input>").2 = .error (.reported (.diagnosed d)) ∧
      d.location = some ⟨"<input>", 2, 1⟩ ∧ d.context = some "x" ∧
      (Text.countedLines "// a\nx".toList)[1]? = some "x".toList := by
  have hquoted : quoted? {} "// a\nx" "<input>" = some (some ⟨"<input>", 2, 1⟩, some "x") := by
    decide +kernel
  obtain ⟨d, hd, hlocation, hcontext⟩ := exists_diagnostic hquoted
  have hplain : ∀ text ∈ (Text.countedLines "// a\nx".toList).take 2, ∀ c ∈ text,
      Text.endsTextLine c = false := by
    have hall : ((Text.countedLines "// a\nx".toList).take 2).all
        (fun text => text.all fun c => !Text.endsTextLine c) = true := by decide +kernel
    simpa using hall
  exact ⟨d, hd, hlocation, hcontext, (compile_quotes_counted_line hd hlocation hcontext hplain).2.1⟩

/-- A form feed in a comment moves the quotation: the place is in the line of `x`, the line that is
quoted is the rest of the comment. -/
theorem form_feed_moves_quotation :
    ∃ d, (compile {} "// a\x0cb\nx" "<input>").2 = .error (.reported (.diagnosed d)) ∧
      d.location = some ⟨"<input>", 2, 1⟩ ∧ d.context = some "b" ∧
      (Text.countedLines "// a\x0cb\nx".toList)[1]? = some "x".toList := by
  have hquoted : quoted? {} "// a\x0cb\nx" "<input>" = some (some ⟨"<input>", 2, 1⟩, some "b") := by
    decide +kernel
  obtain ⟨d, hd, hlocation, hcontext⟩ := exists_diagnostic hquoted
  exact ⟨d, hd, hlocation, hcontext, by decide +kernel⟩

end CirOutline
