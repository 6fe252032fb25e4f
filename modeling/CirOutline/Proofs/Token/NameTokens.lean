import CirOutline.Proofs.Layout.Names
import CirOutline.Proofs.Token.LongestMatch

/-!
Names among the tokens of a text. A name is one token, since the rules for words measure all of it or
nothing, and its text alone decides whether it is a keyword, an operator or a plain word. What comes
behind a name is no obstacle to that: a token starts there, and no token starts with a letter that
names do not have.
-/

namespace CirOutline

variable {c : Char} {kind : TokenKind} {name : List Char} {width : Nat}

open Scan String Text
open List hiding after

variable {cs : List Char} {l : Location} {tokens : List Token}

namespace LexicalRule

/-! ### Lexemes lie within the text -/

theorem wholeWord_le_length (image : Char → Char) (pattern : String) (cs : List Char) :
    wholeWord image pattern cs ≤ cs.length := by
  rw [← length_take_wholeWord]
  exact length_take_le' _ _

theorem runWidth_le_length (p : Char → Bool) (cs : List Char) : runWidth p cs ≤ cs.length :=
  (takeWhile_sublist p).length_le

theorem literalWidth_le_length (pattern : String) (cs : List Char) : literalWidth pattern cs ≤ cs.length := by
  rw [literalWidth]
  split_ifs with hfront
  · rw [← length_toList]
    exact (List.isPrefixOf_iff_prefix.mp hfront).length_le
  · exact Nat.zero_le _

theorem literalsWidth_le_length (patterns : List String) (cs : List Char) :
    literalsWidth patterns cs ≤ cs.length := by
  apply firstWidth_le
  rw [forall_mem_map]
  exact fun pattern _ => literalWidth_le_length pattern cs

theorem commentWidth_le_length (cs : List Char) : commentWidth cs ≤ cs.length := by
  unfold commentWidth
  split
  · next rest =>
    have hrun := runWidth_le_length (fun c => c != '\r' && c != '\n') rest
    rw [runWidth] at hrun
    rw [length_cons, length_cons]
    omega
  · exact Nat.zero_le _

theorem numberWidth_le_length (cs : List Char) : numberWidth cs ≤ cs.length := by
  have hhex : hexWidth cs ≤ cs.length := by
    unfold hexWidth
    split
    · next mark rest =>
      have hrun := runWidth_le_length isHexDigit rest
      simp only [length_cons]
      split_ifs <;> omega
    · exact Nat.zero_le _
  apply firstWidth_le
  rw [forall_mem_cons, forall_mem_singleton]
  exact ⟨hhex, runWidth_le_length Char.isDigit cs⟩

theorem width_le_length (cs : List Char) : ∀ rule ∈ table, rule.width cs ≤ cs.length := by
  have hkeyword : keywordWidth cs ≤ cs.length := by
    apply firstWidth_le
    rw [forall_mem_map]
    exact fun k _ => wholeWord_le_length keywordLetter k.spelling cs
  have hname := (nameWidth_le_runWidth cs).trans (runWidth_le_length continuesName cs)
  have hoperator := (operatorWordWidth_le_nameWidth cs).trans hname
  simp only [table, forall_mem_cons, not_mem_nil, false_imp_iff, implies_true, and_true]
  exact ⟨hkeyword, commentWidth_le_length cs, runWidth_le_length _ cs, literalWidth_le_length _ cs,
    literalsWidth_le_length _ cs, hoperator, hname, numberWidth_le_length cs, runWidth_le_length _ cs,
    literalsWidth_le_length _ cs, literalWidth_le_length _ cs, literalWidth_le_length _ cs,
    literalWidth_le_length _ cs, literalWidth_le_length _ cs⟩

theorem le_length_of_firstMatch? (h : firstMatch? cs = some (kind, width)) : width ≤ cs.length := by
  obtain ⟨rule, hfound, hrule⟩ := Option.map_eq_some_iff.mp h
  obtain ⟨-, rfl⟩ := Prod.mk.inj hrule
  exact width_le_length cs rule (mem_of_find?_eq_some hfound)

/-! ### Names -/

theorem wholeWord_append {image : Char → Char} {pattern : String} {follow : List Char}
    (hname : name.map image = pattern.toList) (hfollow : atBoundary follow = true) :
    wholeWord image pattern (name ++ follow) = name.length := by
  have hlength : pattern.toList.length = name.length := by rw [← hname, List.length_map]
  rw [wholeWord]
  simp [hlength, hname, hfollow]

theorem upperChar_of_basic (h : c.toNat < 128) : upperChar c = [c.toUpper] := by
  have hall : ((List.range 128).all fun n =>
      upperChar (Char.ofNat n) == [(Char.ofNat n).toUpper]) = true := by decide +kernel
  exact beq_iff_eq.mp (of_basic (p := fun c => upperChar c == [c.toUpper]) hall h)

theorem not_folded_of_basic (h : c.toNat < 128) : c ∉ foldedLetters := by
  have hall : ((List.range 128).all fun n => !foldedLetters.contains (Char.ofNat n)) = true := by decide
  have hc := of_basic (p := fun c => !foldedLetters.contains c) hall h
  simpa using hc

theorem upper_of_name (h : ∀ c ∈ name, continuesName c = true) :
    upper (String.ofList name) = String.ofList (name.map keywordLetter) := by
  rw [upper, toList_ofList]
  congr 1
  induction name with
  | nil => rfl
  | cons c name ih =>
    obtain ⟨hc, hname⟩ := forall_mem_cons.mp h
    have hbasic := basic_of_continuesName hc
    rw [flatMap_cons, ih hname, upperChar_of_basic hbasic, map_cons,
      keywordLetter_of_not_folded (not_folded_of_basic hbasic), singleton_append]

section Name

variable {more follow : List Char} (hstart : startsName c = true)
  (hmore : ∀ d ∈ more, continuesName d = true) (hend : ∀ d ∈ follow.head?, continuesName d = false)

include hstart hmore hend

theorem operatorWordWidth_eq_length (h : operatorWordWidth (c :: more ++ follow) ≠ 0) :
    operatorWordWidth (c :: more ++ follow) = (c :: more).length := by
  rw [← nameWidth_name hstart hmore hend]
  exact le_antisymm (operatorWordWidth_le_nameWidth _) (nameWidth_le_operatorWordWidth h)

theorem keywordWidth_eq_length (hplain : ∀ d ∈ c :: more ++ follow, d ∉ foldedLetters)
    (h : keywordWidth (c :: more ++ follow) ≠ 0) :
    keywordWidth (c :: more ++ follow) = (c :: more).length := by
  rw [← nameWidth_name hstart hmore hend]
  exact le_antisymm (keywordWidth_le_nameWidth hplain) (nameWidth_le_keywordWidth h)

theorem operatorWordWidth_ne_zero_iff (hfollow : atBoundary follow = true) :
    operatorWordWidth (c :: more ++ follow) ≠ 0 ↔ String.ofList (c :: more) ∈ operatorWords := by
  constructor
  · intro h
    have hlength := operatorWordWidth_eq_length hstart hmore hend h
    obtain ⟨text, hmem, hletters⟩ := operatorWordWidth_ne_zero h
    rw [hlength, take_left] at hletters
    rw [hletters, ofList_toList]
    exact hmem
  · intro h
    have hword : wholeWord id (String.ofList (c :: more)) (c :: more ++ follow) = (c :: more).length :=
      wholeWord_append (by rw [List.map_id, toList_ofList]) hfollow
    refine firstWidth_ne_zero (mem_map_of_mem h) ?_
    rw [hword]
    exact Nat.succ_ne_zero _

section

variable (hplain : ∀ d ∈ c :: more ++ follow, d ∉ foldedLetters)
include hplain

theorem keywordWidth_ne_zero_iff (hfollow : atBoundary follow = true) : keywordWidth (c :: more ++ follow) ≠ 0 ↔
      ∃ k : Keyword, k.spelling = upper (String.ofList (c :: more)) := by
  have hname : ∀ d ∈ c :: more, continuesName d = true :=
    forall_mem_cons.mpr ⟨continuesName_of_starts hstart, hmore⟩
  rw [upper_of_name hname]
  constructor
  · intro h
    obtain ⟨k, hletters⟩ := (keyword_sound _ h).1
    rw [keywordWidth_eq_length hstart hmore hend hplain h, take_left] at hletters
    exact ⟨k, by rw [hletters, ofList_toList]⟩
  · rintro ⟨k, hk⟩
    have hword : wholeWord keywordLetter k.spelling (c :: more ++ follow) = (c :: more).length :=
      wholeWord_append (by rw [hk, toList_ofList]) hfollow
    have hmem : k ∈ Keyword.all := by cases k <;> decide
    refine firstWidth_ne_zero (mem_map_of_mem hmem) ?_
    rw [hword]
    exact Nat.succ_ne_zero _

theorem firstMatch?_name :
    firstMatch? (c :: more ++ follow) = some (if keywordWidth (c :: more ++ follow) ≠ 0 then .keyword
        else if operatorWordWidth (c :: more ++ follow) ≠ 0 then .operator else .word,
        (c :: more).length) := by
  have hletter : (c :: more ++ follow).head?.map opening = some .letter := by simp [opening, hstart]
  have hother : ∀ {o : Opening} {width : List Char → Nat}, Opens o width → o ≠ .letter →
      width (c :: more ++ follow) = 0 := by
    intro o width hopens hne
    by_contra hwidth
    exact hne (Option.some.inj ((hopens _ hwidth).symm.trans hletter))
  have hcomment := hother comment_opens (by decide)
  have hspaces := hother spaces_opens (by decide)
  have hcolon := hother colon_opens (by decide)
  have harrow := hother arrow_opens (by decide)
  have hname := nameWidth_name hstart hmore hend
  have hkeyword := keywordWidth_eq_length hstart hmore hend hplain
  have hoperator := operatorWordWidth_eq_length hstart hmore hend
  have hpositive : (c :: more).length ≠ 0 := Nat.succ_ne_zero _
  generalize c :: more ++ follow = text at hcomment hspaces hcolon harrow hname hkeyword hoperator ⊢
  generalize (c :: more).length = width at hname hkeyword hoperator hpositive ⊢
  rw [firstMatch?, table]
  by_cases hkey : keywordWidth text = 0
  · by_cases hword : operatorWordWidth text = 0
    · simp [hkey, hcomment, hspaces, hcolon, harrow, hword, hname, hpositive]
    · simp [hkey, hcomment, hspaces, hcolon, harrow, hoperator hword, hpositive]
  · simp [hkeyword hkey, hpositive]

end

end Name

end LexicalRule

open LexicalRule

/-! ### Names in a text -/

theorem LexicalRule.atBoundary_of_firstMatch? (h : firstMatch? cs = some (kind, width))
    (hplain : ∀ d ∈ cs, d ∉ foldedLetters) (hend : ∀ d ∈ cs.head?, continuesName d = false) :
    atBoundary cs = true := by
  cases cs with
  | nil => rfl
  | cons c rest =>
    rw [atBoundary, Bool.not_eq_true', Bool.eq_false_iff]
    intro hword
    -- only a keyword could start here, and its letters are those of names
    obtain rfl := kind_of_foreign hword (hend c rfl) h
    obtain ⟨k, hletters⟩ := (firstMatch?_sound h).2.1
    obtain ⟨n, rfl⟩ := Nat.exists_eq_succ_of_ne_zero (firstMatch?_sound h).1
    have hletter : (keywordLetter c).isUpper = true := by
      apply all_eq_true.mp (keywords_upper k)
      rw [← hletters]
      exact mem_cons_self
    have hstart := startsName_of_keywordLetter hletter (hplain c mem_cons_self)
    exact Bool.noConfusion ((hend c rfl).symm.trans (continuesName_of_starts hstart))

namespace Scan

theorem tokensFrom_cons {t : Token} (h : tokensFrom l cs = (t :: tokens, none)) :
    firstMatch? cs = some (t.kind, t.raw.length) ∧
      ∃ l' rest, cs = t.raw.toList ++ rest ∧ tokensFrom l' rest = (tokens, none) := by
  revert h
  fun_cases tokensFrom l cs with
  | case1 | case2 c rest hmatch => exact fun h => absurd (congrArg Prod.fst h) (cons_ne_nil t tokens).symm
  | case3 c rest kind width hmatch lexeme hmixed =>
    exact fun h => absurd (congrArg Prod.fst h) (cons_ne_nil t tokens).symm
  | case4 c rest kind width hmatch lexeme hmixed found problem hrest =>
    intro h
    obtain ⟨htokens, rfl⟩ := Prod.mk.inj h
    obtain ⟨rfl, rfl⟩ := List.cons.inj htokens
    obtain ⟨n, rfl⟩ := Nat.exists_eq_succ_of_ne_zero (firstMatch?_sound hmatch).1
    have hlength : (String.ofList lexeme).length = n + 1 := by
      have hfits := le_length_of_firstMatch? hmatch
      rw [length_cons] at hfits
      rw [length_ofList, length_cons, Nat.succ_sub_one, length_take]
      omega
    refine ⟨by rw [hmatch, hlength], _, _, ?_, hrest⟩
    rw [toList_ofList, cons_append, Nat.succ_sub_one, take_append_drop]

theorem tokensFrom_append {earlier later : List Token} (h : tokensFrom l cs = (earlier ++ later, none)) :
    ∃ l' rest, cs = Token.chars earlier ++ rest ∧ tokensFrom l' rest = (later, none) := by
  induction earlier generalizing l cs with
  | nil => exact ⟨l, cs, rfl, h⟩
  | cons t earlier ih =>
    obtain ⟨-, l', rest, rfl, hrest⟩ := tokensFrom_cons h
    obtain ⟨l'', rest, rfl, hlater⟩ := ih hrest
    exact ⟨l'', rest, by rw [Token.chars_cons, List.append_assoc], hlater⟩

theorem eq_nil_of_tokensFrom (h : tokensFrom l cs = ([], none)) : cs = [] := by
  revert h
  fun_cases tokensFrom l cs with
  | case1 => exact fun _ => rfl
  | case2 c rest hmatch => exact fun h => absurd (congrArg Prod.snd h) (Option.some_ne_none _)
  | case3 c rest kind width hmatch lexeme hmixed =>
    exact fun h => absurd (congrArg Prod.snd h) (Option.some_ne_none _)
  | case4 c rest kind width hmatch lexeme hmixed found problem hrest =>
    exact fun h => absurd (congrArg Prod.fst h) (cons_ne_nil _ _)

theorem atBoundary_of_tokensFrom (h : tokensFrom l cs = (tokens, none))
    (hplain : ∀ d ∈ cs, d ∉ foldedLetters) (hend : ∀ d ∈ cs.head?, continuesName d = false) :
    atBoundary cs = true := by
  cases tokens with
  | nil =>
    rw [eq_nil_of_tokensFrom h]
    rfl
  | cons t tokens => exact atBoundary_of_firstMatch? (tokensFrom_cons h).1 hplain hend

end Scan

theorem tokensFrom_of_tokenize {source file : String} (h : tokenize source file = .ok tokens) :
    tokensFrom ⟨file, 1, 1⟩ source.toList = (tokens, none) := by
  rw [tokenize] at h
  split at h
  · next found hfound => rw [hfound, Except.ok.inj h]
  · cases h

section NameToken

variable {follow : List Char} (hmatch : firstMatch? (name ++ follow) = some (kind, width))
  (hname : TokenKind.word.Lexeme name) (hend : ∀ d ∈ follow.head?, continuesName d = false)
  (hplain : ∀ d ∈ name ++ follow, d ∉ foldedLetters)

include hmatch hname hend hplain

theorem LexicalRule.width_of_name : width = name.length := by
  obtain ⟨c, more, rfl, hstart, hmore⟩ := hname
  rw [firstMatch?_name hstart hmore hend hplain] at hmatch
  exact (Prod.mk.inj (Option.some.inj hmatch)).2.symm

theorem LexicalRule.kind_of_name (hfollow : atBoundary follow = true) :
    (kind = .keyword ↔ ∃ k : Keyword, k.spelling = upper (String.ofList name)) ∧
      (kind = .operator ↔ String.ofList name ∈ operatorWords) ∧
      (kind = .word ↔ (¬∃ k : Keyword, k.spelling = upper (String.ofList name)) ∧
        String.ofList name ∉ operatorWords) := by
  obtain ⟨c, more, rfl, hstart, hmore⟩ := hname
  have hkeyword := keywordWidth_ne_zero_iff hstart hmore hend hplain hfollow
  have hoperator := operatorWordWidth_ne_zero_iff hstart hmore hend hfollow
  -- no operator is a keyword
  have hdisjoint : String.ofList (c :: more) ∈ operatorWords →
      ¬∃ k : Keyword, k.spelling = upper (String.ofList (c :: more)) := by
    have hnone : ∀ text ∈ operatorWords, ∀ k ∈ Keyword.all, k.spelling ≠ upper text := by
      decide +kernel
    rintro hmem ⟨k, hk⟩
    exact hnone _ hmem k (by cases k <;> decide) hk
  rw [firstMatch?_name hstart hmore hend hplain] at hmatch
  obtain ⟨rfl, -⟩ := Prod.mk.inj (Option.some.inj hmatch)
  rw [← hkeyword, ← hoperator] at hdisjoint ⊢
  generalize keywordWidth (c :: more ++ follow) = key at hdisjoint ⊢
  generalize operatorWordWidth (c :: more ++ follow) = word at hdisjoint ⊢
  by_cases hkey : key = 0
  · by_cases hword : word = 0 <;> simp [hkey, hword]
  · have hword : word = 0 := by
      by_contra hword
      exact hdisjoint hword hkey
    simp [hkey, hword]

end NameToken

/-- The first rule that applies is also one that takes the most. In a text that is split and holds
none of the folded letters, this is so at every token; and a name there is one token: a keyword when
its upper case form is one, an operator when it is one of three words, a plain word otherwise. -/
theorem tokenize_takes_longest {source file : String} {tokens : List Token}
    (h : tokenize source file = .ok tokens) (hplain : ∀ c ∈ source.toList, c ∉ foldedLetters) :
    ∀ earlier t later, tokens = earlier ++ t :: later →
      ∃ rest, source.toList = Token.chars earlier ++ rest ∧
        firstMatch? rest = some (t.kind, t.raw.length) ∧
        longestMatch? rest = some (t.kind, t.raw.length) ∧
        (∀ rule ∈ table, rule.width rest ≤ t.raw.length) ∧
        ∀ name follow, rest = name ++ follow → TokenKind.word.Lexeme name →
          (∀ d ∈ follow.head?, continuesName d = false) →
          t.raw = String.ofList name ∧
            (t.kind = .keyword ↔ ∃ k : Keyword, k.spelling = Text.upper t.raw) ∧
            (t.kind = .operator ↔ t.raw ∈ ["and", "or", "is"]) ∧
            (t.kind = .word ↔ (¬∃ k : Keyword, k.spelling = Text.upper t.raw) ∧
              t.raw ∉ ["and", "or", "is"]) := by
  rintro earlier t later rfl
  obtain ⟨l, rest, hsource, hrest⟩ := tokensFrom_append (tokensFrom_of_tokenize h)
  obtain ⟨hmatch, l', more, hsplit, hmore⟩ := tokensFrom_cons hrest
  have hlongest : longestMatch? rest = some (t.kind, t.raw.length) := by
    rw [longestMatch?_eq_firstMatch?, hmatch]
  refine ⟨rest, hsource, hmatch, hlongest, width_le_of_firstMatch? hmatch, ?_⟩
  rintro name follow rfl hname hend
  have hplain : ∀ d ∈ name ++ follow, d ∉ foldedLetters := by
    intro d hd
    apply hplain
    rw [hsource]
    exact mem_append_right _ hd
  -- the first rule takes the whole name, so the token and the name end together
  have hlength : t.raw.toList.length = name.length := by
    rw [length_toList]
    exact width_of_name hmatch hname hend hplain
  obtain ⟨rfl, rfl⟩ := append_inj hsplit hlength.symm
  have hfollow : atBoundary follow = true :=
    atBoundary_of_tokensFrom hmore (fun d hd => hplain d (mem_append_right _ hd)) hend
  have hkind := kind_of_name hmatch hname hend hplain hfollow
  rw [ofList_toList] at hkind ⊢
  exact ⟨rfl, hkind⟩

/-- The tokens of a keyword, a word that an operator begins, an arrow that a minus sign begins, and a
number. -/
def arrowTokens : List Token :=
  [⟨.keyword, "elseif", ⟨"arrow.cir", 1, 1⟩⟩, ⟨.spaces, " ", ⟨"arrow.cir", 1, 7⟩⟩,
    ⟨.word, "andy", ⟨"arrow.cir", 1, 8⟩⟩, ⟨.returnArrow, "->", ⟨"arrow.cir", 1, 12⟩⟩,
    ⟨.number, "0x1F", ⟨"arrow.cir", 1, 14⟩⟩]

theorem tokenize_takes_longest_of_arrow :
    tokenize "elseif andy->0x1F" "arrow.cir" = .ok arrowTokens ∧
      (∀ c ∈ "elseif andy->0x1F".toList, c ∉ foldedLetters) ∧
      longestMatch? "andy->0x1F".toList = some (.word, 4) ∧
      (∀ rule ∈ table, rule.width "andy->0x1F".toList ≤ 4) ∧
      ¬(∃ k : Keyword, k.spelling = Text.upper "andy") ∧ "andy" ∉ ["and", "or", "is"] := by
  have hscan : (tokenize "elseif andy->0x1F" "arrow.cir").toOption = some arrowTokens := by
    decide +kernel
  have htokens := eq_ok_of_toOption hscan
  have hplain : ∀ c ∈ "elseif andy->0x1F".toList, c ∉ foldedLetters := by
    have hall : ("elseif andy->0x1F".toList.all fun c => !foldedLetters.contains c) = true := by decide
    simpa using hall
  obtain ⟨rest, hsource, -, hlongest, hwidth, hname⟩ := tokenize_takes_longest htokens hplain
    (arrowTokens.take 2) ⟨.word, "andy", ⟨"arrow.cir", 1, 8⟩⟩ (arrowTokens.drop 3) rfl
  have hsplit : "elseif andy->0x1F".toList =
      Token.chars (arrowTokens.take 2) ++ "andy->0x1F".toList := by decide
  obtain rfl := append_cancel_left (hsplit.symm.trans hsource)
  have hlexeme : TokenKind.word.Lexeme "andy".toList :=
    ⟨'a', ['n', 'd', 'y'], rfl, by decide, all_eq_true.mp (by decide)⟩
  have hend : ∀ d ∈ "->0x1F".toList.head?, continuesName d = false := by
    rintro d ⟨⟩
    decide
  obtain ⟨-, -, -, hkind⟩ := hname "andy".toList "->0x1F".toList rfl hlexeme hend
  exact ⟨htokens, hplain, hlongest, hwidth, hkind.mp rfl⟩

end CirOutline
