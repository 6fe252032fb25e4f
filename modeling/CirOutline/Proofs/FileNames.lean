import CirOutline.FileSystem
import Mathlib.Data.String.Basic
import Mathlib.Tactic.Common

/-!
Names of files and where they lead. A name that has been read and put together again is read as the same
path. A name leads where its path does, and another last part leads to another place.
-/

namespace CirOutline

open List

variable {fs : FileSystem} {name part : String} {place next : Place} {init rest : List String}

/-! ### Parts -/

theorem splitOnAux_slash (l m r : List Char) (done : List String) :
    String.splitOnAux (.ofList (l ++ m ++ r)) "/" ⟨String.utf8Len l⟩
      ⟨String.utf8Len l + String.utf8Len m⟩ 0 done =
      done.reverse ++ (splitOnPPrepend (· == '/') r m.reverse).map String.ofList := by
  induction r generalizing l m done with
  | nil =>
    have hend := (String.atEnd_of_valid (l ++ m) []).mpr rfl
    have hpart := String.extract_of_valid l m []
    rw [String.utf8Len_append] at hend
    rw [String.splitOnAux, if_pos hend, hpart]
    simp
  | cons c r ih =>
    have hend := mt (String.atEnd_of_valid (l ++ m) (c :: r)).mp (cons_ne_nil c r)
    have hget := String.get_of_valid (l ++ m) (c :: r)
    have hnext := String.next_of_valid (l ++ m) c r
    have hpart := String.extract_of_valid l m (c :: r)
    rw [String.utf8Len_append] at hend hget hnext
    rw [append_assoc] at hpart ⊢
    rw [append_assoc] at hend hget hnext
    rw [String.splitOnAux, if_neg hend, hget, hnext, splitOnPPrepend_cons_eq_if]
    by_cases hc : c = '/'
    · subst hc
      have hback : (⟨String.utf8Len l + String.utf8Len m + '/'.utf8Size⟩ : String.Pos.Raw).unoffsetBy
          (String.Pos.Raw.next "/" 0) = ⟨String.utf8Len l + String.utf8Len m⟩ := rfl
      have hrest := ih (l ++ m ++ ['/']) [] (.ofList m :: done)
      rw [if_pos (by rfl), if_pos (by rfl), hback, hpart, if_pos (by rfl), splitOnP_eq_splitOnPPrepend]
      simpa [Nat.add_assoc] using hrest
    · have hrest := ih l (m ++ [c]) done
      have hhere : (⟨String.utf8Len l + String.utf8Len m⟩ : String.Pos.Raw).unoffsetBy 0 =
          ⟨String.utf8Len l + String.utf8Len m⟩ := rfl
      have hother : ¬ ((c :: r).headD default == String.Pos.Raw.get "/" 0) = true := by
        rw [show String.Pos.Raw.get "/" 0 = '/' from rfl]
        simpa using hc
      rw [if_neg hother, if_neg (by simpa using hc), hhere, hnext]
      simpa [Nat.add_assoc] using hrest

theorem splitOn_slash (text : String) :
    text.splitOn "/" = (text.toList.splitOn '/').map String.ofList := by
  have h := splitOnAux_slash [] [] text.toList []
  rw [String.splitOn, if_neg (by decide), List.splitOn, splitOnP_eq_splitOnPPrepend]
  simpa using h

theorem slash_notMem_of_mem_splitOn {cs part : List Char} (h : part ∈ cs.splitOn '/') : '/' ∉ part := by
  induction cs generalizing part with
  | nil =>
    obtain rfl : part = [] := by simpa using h
    exact not_mem_nil
  | cons c cs ih =>
    rw [splitOn_cons_eq_if_modifyHead] at h
    split at h
    · rcases mem_cons.mp h with rfl | h
      · exact not_mem_nil
      · exact ih h
    · next hc =>
      cases hsplit : cs.splitOn '/' with
      | nil => exact absurd hsplit (splitOn_ne_nil _ _)
      | cons first others =>
        rw [hsplit] at h ih
        rcases mem_cons.mp h with rfl | h
        · rw [mem_cons, not_or]
          exact ⟨fun hslash => hc (beq_iff_eq.mpr hslash.symm), ih mem_cons_self⟩
        · exact ih (mem_cons_of_mem _ h)

namespace Path

/-- A path as reading a name gives it: every part stands for a step. -/
structure Normal (p : Path) : Prop where
  root : p.root = "" ∨ p.root = "/" ∨ p.root = "//"
  parts : ∀ part ∈ p.parts, part ≠ "" ∧ part ≠ "." ∧ '/' ∉ part.toList

theorem normal_ofText (text : String) : (ofText text).Normal where
  root := by
    unfold ofText rootText
    split <;> simp
  parts part h := by
    obtain ⟨hmem, hkept⟩ := mem_filter.mp h
    rw [splitOn_slash] at hmem
    obtain ⟨cs, hcs, rfl⟩ := mem_map.mp hmem
    have hslash := slash_notMem_of_mem_splitOn hcs
    simp only [Bool.and_eq_true, bne_iff_ne] at hkept
    exact ⟨hkept.1, hkept.2, by rwa [String.toList_ofList]⟩

theorem exists_joined {parts : List String} (hparts : parts ≠ [])
    (h : ∀ part ∈ parts, part ≠ "" ∧ part ≠ "." ∧ '/' ∉ part.toList) :
    ∃ c cs, ("/".intercalate parts).toList = c :: cs ∧ c ≠ '/' ∧
      (c :: cs).splitOn '/' = parts.map String.toList := by
  have hslash : ∀ cs ∈ parts.map String.toList, '/' ∉ cs := forall_mem_map.mpr fun part hpart =>
    (h part hpart).2.2
  have hfull : [] ∉ parts.map String.toList := by
    intro hmem
    obtain ⟨part, hpart, hnil⟩ := mem_map.mp hmem
    exact (h part hpart).1 (String.toList_eq_nil_iff.mp hnil)
  have hsplit := splitOn_intercalate '/' hslash (mt map_eq_nil_iff.mp hparts)
  rw [String.toList_intercalate]
  change ∃ c cs, ['/'].intercalate (parts.map String.toList) = c :: cs ∧ _
  cases hjoined : ['/'].intercalate (parts.map String.toList) with
  | nil =>
    rw [hjoined, splitOn_nil] at hsplit
    exact absurd (hsplit ▸ mem_cons_self) hfull
  | cons c cs =>
    rw [hjoined] at hsplit
    refine ⟨c, cs, rfl, fun hc => ?_, hsplit⟩
    rw [splitOn_cons_eq_if_modifyHead, if_pos (beq_iff_eq.mpr hc)] at hsplit
    exact hfull (hsplit ▸ mem_cons_self)

theorem ofText_text {p : Path} (h : p.Normal) (hparts : p.parts ≠ []) : ofText p.text = p := by
  obtain ⟨root, parts⟩ := p
  obtain ⟨c, cs, hjoined, hc, hsplit⟩ := exists_joined hparts h.parts
  have hfull : ¬ (root ++ "/".intercalate parts).isEmpty = true := by
    rw [String.isEmpty_iff, ← String.toList_eq_nil_iff, String.toList_append, hjoined]
    simp
  have htext : (text ⟨root, parts⟩).toList = root.toList ++ c :: cs := by
    rw [text, if_neg hfull, String.toList_append, hjoined]
  have hkept : parts.filter (fun part => part != "" && part != ".") = parts :=
    filter_eq_self.mpr fun part hpart => by simp [h.parts part hpart]
  have hback : (parts.map String.toList).map String.ofList = parts := by simp
  unfold ofText
  rw [splitOn_slash, htext]
  rcases h.root with rfl | rfl | rfl
  all_goals
    simp [splitOn_cons_eq_if_modifyHead, hsplit, rootText, hc, hback, hkept]

/-! ### Suffixes -/

theorem resuffix_spec (name : String) :
    ∃ stem, resuffix ".c" name = stem ++ ".c" ∧ stem.toList <+: name.toList := by
  simp only [resuffix]
  split_ifs
  · refine ⟨_, rfl, ?_⟩
    rw [String.toList_ofList]
    exact take_prefix _ _
  · exact ⟨name, rfl, prefix_rfl⟩

theorem resuffix_append {stem : String} (h : stem ≠ "") : resuffix ".c" (stem ++ ".c") = stem ++ ".c" := by
  have hending : ((stem ++ ".c").toList.reverse.takeWhile (· != '.')).reverse = ['c'] := by simp
  have hlength : (stem ++ ".c").toList.length = stem.toList.length + 2 := by simp
  have hstem : (stem ++ ".c").toList.take (stem.toList.length + 2 - 1 - 1) = stem.toList := by simp
  have hfull : stem.toList.isEmpty = false := by simpa using h
  simp only [resuffix, hending, hlength, length_singleton, hstem, hfull]
  rw [if_pos (by simp), String.ofList_toList]

theorem resuffix_eq_self : resuffix ".c" name = name ↔ ∃ stem, stem ≠ "" ∧ name = stem ++ ".c" := by
  constructor
  · intro h
    obtain ⟨stem, hstem, -⟩ := resuffix_spec name
    refine ⟨stem, ?_, h.symm.trans hstem⟩
    rintro rfl
    rw [show name = ".c" from h.symm.trans hstem] at h
    exact absurd h (by decide)
  · rintro ⟨stem, hne, rfl⟩
    exact resuffix_append hne

theorem append_suffix_ne (stem : String) : stem ++ ".c" ≠ "" ∧ stem ++ ".c" ≠ "." ∧ stem ++ ".c" ≠ ".." := by
  have hlast : ∀ other : String, other.toList.getLast? ≠ some 'c' → stem ++ ".c" ≠ other := by
    rintro _ hother rfl
    exact hother (by simp)
  exact ⟨hlast "" (by decide), hlast "." (by decide), hlast ".." (by decide)⟩

theorem withSuffix_spec {p : Path} {last : String} (hparts : p.parts = init ++ [last]) :
    p.withSuffix ".c" = ⟨p.root, init ++ [resuffix ".c" last]⟩ := by
  rw [withSuffix, hparts, getLast?_concat]
  simp

theorem Normal.withSuffix {p : Path} {last : String} (h : p.Normal) (hparts : p.parts = init ++ [last]) :
    (p.withSuffix ".c").Normal := by
  obtain ⟨stem, hstem, hinitial⟩ := resuffix_spec last
  obtain ⟨hempty, hdot, -⟩ := append_suffix_ne stem
  rw [withSuffix_spec hparts, hstem]
  have hold := h.parts
  rw [hparts, forall_mem_append] at hold
  refine ⟨h.root, forall_mem_append.mpr ⟨hold.1, forall_mem_singleton.mpr ⟨hempty, hdot, ?_⟩⟩⟩
  have hslash : '/' ∉ stem.toList := fun hmem =>
    (forall_mem_singleton.mp hold.2).2.2 (hinitial.subset hmem)
  simpa using hslash

end Path

/-! ### Places -/

/-- A name leads to a place if something is there or could be made there. -/
def Resolved.To (r : Resolved) (place : Place) : Prop := r = .entry place ∨ r = .vacant place

theorem Resolved.To.unique {r : Resolved} (h : r.To place) (hnext : r.To next) : place = next := by
  rcases h with rfl | rfl <;> rcases hnext with heq | heq <;> cases heq <;> rfl

namespace FileSystem

/-- Where a name with a root starts. -/
def start (fs : FileSystem) (root : String) : Place := if root = "" then fs.workingDirectory else []

/-- Goes on with more parts from where a name led. -/
def further (fs : FileSystem) (rest : List String) : Resolved → Resolved
  | .entry place => fs.follow place rest
  | .vacant _ => .missing
  | stop => stop

theorem follow_append (hrest : rest ≠ []) (place : Place) (init : List String) :
    fs.follow place (init ++ rest) = fs.further rest (fs.follow place init) := by
  induction init generalizing place with
  | nil => rfl
  | cons part init ih =>
    simp only [cons_append, follow]
    split_ifs with hplace hskip hup hlong hthere hempty hlast hlast
    · rfl
    · exact ih _
    · exact ih _
    · rfl
    · exact ih _
    · exact absurd (append_eq_nil_iff.mp (isEmpty_iff.mp hempty)).2 hrest
    · exact absurd (append_eq_nil_iff.mp (isEmpty_iff.mp hempty)).2 hrest
    · rfl
    · rfl

theorem follow_filter (h : (fs.follow place rest).To next) :
    fs.follow place (rest.filter fun part => part != "" && part != ".") = fs.follow place rest := by
  induction rest generalizing place with
  | nil => rfl
  | cons part rest ih =>
    rw [follow] at h ⊢
    by_cases hplace : (!fs.isDirectory place) = true
    · rw [if_pos hplace] at h
      rcases h with h | h <;> cases h
    by_cases hskip : (part == "" || part == ".") = true
    · rw [if_neg hplace, if_pos hskip] at h ⊢
      rw [filter_cons_of_neg (by simpa [or_iff_not_imp_left] using hskip), ih h]
    rw [if_neg hplace, if_neg hskip] at h ⊢
    rw [filter_cons_of_pos (by simpa using hskip), follow, if_neg hplace, if_neg hskip]
    dsimp only at h ⊢
    by_cases hup : (part == "..") = true
    · rw [if_pos hup] at h
      rw [if_pos hup, if_pos hup, ih h]
    rw [if_neg hup] at h
    rw [if_neg hup, if_neg hup]
    by_cases hthere : (fs.isDirectory (place ++ [part]) || (fs.content? (place ++ [part])).isSome) = true
    · simp only [hthere, if_true] at h ⊢
      split_ifs at h ⊢
      · rfl
      · exact ih h
    · cases rest with
      | nil => rfl
      | cons other rest =>
        simp only [hthere, isEmpty_cons, Bool.false_eq_true, if_false] at h
        split_ifs at h <;> rcases h with h | h <;> cases h

theorem isDirectory_start (fs : FileSystem) (root : String) : fs.isDirectory (fs.start root) = true := by
  unfold start
  split_ifs <;> simp [isDirectory]

theorem start_ofText (fs : FileSystem) (name : String) : fs.start (Path.ofText name).root =
    if name.toList.head? == some '/' then [] else fs.workingDirectory := by
  have hroot : ∀ slashes, Path.rootText slashes = "" ↔ slashes = 0 := by
    intro slashes
    unfold Path.rootText
    split <;> simp_all
  simp only [start, Path.ofText, hroot]
  cases name.toList with
  | nil => rfl
  | cons c cs => by_cases hc : c = '/' <;> simp [hc]

/-- A name leads where its path does. -/
theorem resolve_eq_follow (h : (fs.resolve name).To place) :
    fs.resolve name = fs.follow (fs.start (Path.ofText name).root) (Path.ofText name).parts := by
  rw [start_ofText]
  by_cases hroot : (name.toList.head? == some '/') = true <;>
    simp only [resolve, hroot, if_true, if_false, Bool.false_eq_true] at h ⊢ <;>
    split_ifs at h ⊢
  any_goals exact (follow_filter h).symm
  all_goals rcases h with h | h <;> cases h

theorem to_of_follow_single {dir : Place} (hpart : part ≠ "" ∧ part ≠ ".")
    (h : (fs.follow dir [part]).To place) :
    part = ".." ∧ place = dir.dropLast ∨ part ≠ ".." ∧ place = dir ++ [part] := by
  have hskip : ¬ (part == "" || part == ".") = true := by simpa using hpart
  simp only [follow, hskip, Bool.false_eq_true, if_false, beq_iff_eq, isEmpty_nil, if_true] at h
  by_cases hup : part = ".."
  · left
    rw [if_pos hup] at h
    split_ifs at h
    · rcases h with h | h <;> cases h
    · rcases h with h | h <;> cases h
      exact ⟨hup, rfl⟩
  · right
    rw [if_neg hup] at h
    split_ifs at h <;> rcases h with h | h <;> cases h <;> exact ⟨hup, rfl⟩

/-- In one directory, two names lead to one place only if they are the same. -/
theorem place_eq_iff {last other : String} (hlast : last ≠ "" ∧ last ≠ ".")
    (hother : other ≠ "" ∧ other ≠ "." ∧ other ≠ "..") {from' : Place}
    (h : (fs.follow from' (init ++ [last])).To place)
    (hnext : (fs.follow from' (init ++ [other])).To next) : next = place ↔ other = last := by
  constructor
  · rintro rfl
    rw [follow_append (cons_ne_nil _ _)] at h hnext
    cases hdir : fs.follow from' init with
    | entry dir =>
      rw [hdir] at h hnext
      rcases to_of_follow_single hlast h with ⟨-, hplace⟩ | ⟨-, hplace⟩ <;>
        rcases to_of_follow_single ⟨hother.1, hother.2.1⟩ hnext with ⟨hup, -⟩ | ⟨-, hplace'⟩
      · exact absurd hup hother.2.2
      · have hlength := congrArg length (hplace.symm.trans hplace')
        simp only [length_dropLast, length_append, length_singleton] at hlength
        omega
      · exact absurd hup hother.2.2
      · exact (singleton_inj.mp (append_cancel_left (hplace.symm.trans hplace'))).symm
    | vacant | missing | notDirectory | tooLong | hasNull =>
      rw [hdir] at h
      rcases h with h | h <;> cases h
  · rintro rfl
    exact hnext.unique h

end FileSystem

end CirOutline
