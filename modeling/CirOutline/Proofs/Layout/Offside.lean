import CirOutline.Proofs.Token.Scanning
import Mathlib.Data.List.Nodup
import Mathlib

/-!
The off-side rule. A line is owned by the latest earlier header such that every line after the
header, up to the line itself, is deeper than the header. `Outlined.arranged` shows that the
trees of outlined lines are exactly the ones that this rule gives: statement nodes are told apart by
their places, which no two tokens of a text share.
-/

namespace CirOutline

open List Node SourceLine Option

variable {i floor : Nat} {ts rest : List Token} {l : SourceLine} {location p q : Location}
  {unit : Option Nat} {reader : LineReader} {types after : List String}
  {siblings comments nodes a b block done : List Node} {s : Statement} {lines inner : List SourceLine}
  {t : Token}

/-! ### What a line is -/

theorem opensBlock_plain (k : Keyword) : k.plain.opensBlock = k.opensBlock := by
  cases k <;> rfl

theorem kind_of_keyword_line {k : Keyword} (hink : Token.ink l = t :: rest) (hfits : (Mark.keyword k).Fits t) :
    l.isHeader = k.opensBlock ∧ l.isRemark = false ∧ l.opensType = (k == .structureKey) := by
  obtain ⟨found, hfound, rfl⟩ := map_eq_some_iff.mp hfits
  have hkind := kind_of_keyword? hfound
  refine ⟨?_, ?_, ?_⟩
  · rw [isHeader, hink, opensBlock_plain]
    simp only [hfound]
  · rw [isRemark, hink]
    simp [hkind]
  · rw [opensType, hink]
    simp only [head?_cons, any_some, hfound]
    cases found <;> rfl

theorem kind_of_plain_line (hink : Token.ink l = t :: rest) (hkind : t.kind ≠ .keyword) :
    l.isHeader = (t.kind == .word && rest.head?.any fun u => u.kind == .colon) ∧
      l.isRemark = (t.kind == .comment) ∧ l.opensType = false := by
  have hkeyword : t.keyword? = none := by simp [Token.keyword?, Token.keywordText?, hkind]
  refine ⟨?_, ?_, ?_⟩
  · simp [isHeader, hink, hkeyword]
  · simp [isRemark, hink]
  · simp [opensType, hink, hkeyword]

theorem place?_append (h : Token.place? ts = some location) (more : List Token) :
    Token.place? (ts ++ more) = some location := by
  cases ts with
  | nil => simp [Token.place?] at h
  | cons t ts =>
    cases ts with
    | cons u ts => exact h
    | nil =>
      by_cases hmutable : t.keyword? = some .mutableKey
      · simp [Token.place?, hmutable] at h
      · simpa [Token.place?, hmutable] using h

def Statement.isComment : Statement → Bool
  | comment _ => true
  | _ => false

def Statement.isType : Statement → Bool
  | structType _ => true
  | _ => false

theorem Statement.marks_start (s : Statement) (loose : Bool) :
    (∃ k more, Mark.ink (s.marks loose) = .keyword k :: more ∧ s.opensBlock = k.opensBlock ∧
        s.isComment = false ∧ s.isType = (k == .structureKey)) ∨
      (∃ text kind more, Mark.ink (s.marks loose) = .word text :: .symbol kind :: more ∧
        s.opensBlock = (kind == .colon) ∧ s.isComment = false ∧ s.isType = false) ∨
      ∃ text, s = .comment text := by
  cases s with
  | comment text => exact .inr (.inr ⟨text, rfl⟩)
  | declaration type names isMutable =>
    cases isMutable with
    | false => exact .inr (.inl ⟨_, .openParen, _, rfl, rfl, rfl, rfl⟩)
    | true => exact .inl ⟨_, _, rfl, rfl, rfl, rfl⟩
  | assignment name expression => exact .inr (.inl ⟨_, .setEquals, _, rfl, rfl, rfl, rfl⟩)
  | call name arguments => exact .inr (.inl ⟨_, .openParen, _, rfl, rfl, rfl, rfl⟩)
  | option name => exact .inr (.inl ⟨_, .colon, _, rfl, rfl, rfl, rfl⟩)
  | _ => exact .inl ⟨_, _, rfl, rfl, rfl, rfl⟩

theorem SourceLine.Says.kind (h : l.Says unit reader floor types siblings s location comments) :
    l.isHeader = s.opensBlock ∧ l.isRemark = s.isComment ∧ l.opensType = s.isType ∧
      l.place? = some location := by
  obtain ⟨ts, trailing, hink, -, ⟨loose, hfits⟩, hplace, -⟩ := h.written
  have hline : l.place? = some location := by
    rw [place?, hink]
    exact place?_append hplace trailing
  rcases s.marks_start loose with
    ⟨k, more, hmarks, hopens, hcomment, htype⟩ | ⟨text, kind, more, hmarks, hopens, hcomment, htype⟩ |
    ⟨text, rfl⟩
  · rw [hmarks] at hfits
    obtain ⟨t, rest, hfirst, -, rfl⟩ := forall₂_cons_left_iff.mp hfits
    obtain ⟨hheader, hremark, hstruct⟩ := kind_of_keyword_line hink hfirst
    exact ⟨hheader.trans hopens.symm, hremark.trans hcomment.symm, hstruct.trans htype.symm, hline⟩
  · rw [hmarks] at hfits
    obtain ⟨t, rest, hfirst, hmore, rfl⟩ := forall₂_cons_left_iff.mp hfits
    obtain ⟨u, rest, hsecond, -, rfl⟩ := forall₂_cons_left_iff.mp hmore
    obtain ⟨hheader, hremark, hstruct⟩ := kind_of_plain_line hink (by simp [hfirst.1])
    have hsecond : u.kind = kind := hsecond
    rw [hfirst.1] at hheader hremark
    exact ⟨by simp [hheader, hopens, hsecond], hremark.trans hcomment.symm, hstruct.trans htype.symm, hline⟩
  · obtain ⟨t, rest, hfirst, -, rfl⟩ := forall₂_cons_left_iff.mp hfits
    obtain ⟨hheader, hremark, hstruct⟩ := kind_of_plain_line hink (by simp [hfirst.1])
    rw [hfirst.1] at hheader hremark
    exact ⟨hheader, hremark, hstruct, hline⟩

/-! ### Ownership -/

/-- The line at `j` is a header before the line at `i`, and all lines after it up to `i` are
deeper. -/
def Encloses (unit : Option Nat) (lines : List SourceLine) (j i : Nat) : Prop :=
  j < i ∧ ∃ h, lines[j]? = some h ∧ h.isHeader = true ∧
    ∀ m, j < m → m ≤ i → ∃ l, lines[m]? = some l ∧ h.level unit < l.level unit

/-- The line at `j` is the latest header that encloses the line at `i`. -/
def Owns (unit : Option Nat) (lines : List SourceLine) (j i : Nat) : Prop :=
  Encloses unit lines j i ∧ ∀ k, Encloses unit lines k i → k ≤ j

section Ownership

variable {a b ls : List SourceLine} {j : Nat}

theorem encloses_cons_succ : Encloses unit (l :: ls) (j + 1) (i + 1) ↔ Encloses unit ls j i := by
  unfold Encloses
  simp only [getElem?_cons_succ, Nat.add_lt_add_iff_right]
  refine and_congr_right fun _ => exists_congr fun h => and_congr_right fun _ => and_congr_right fun _ => ?_
  refine ⟨fun hdeep m hj hi => ?_, fun hdeep m hj hi => ?_⟩
  · have hm := hdeep (m + 1) (by omega) (by omega)
    rwa [getElem?_cons_succ] at hm
  · obtain ⟨m, rfl⟩ : ∃ n, m = n + 1 := ⟨m - 1, by omega⟩
    rw [getElem?_cons_succ]
    exact hdeep m (by omega) (by omega)

theorem not_encloses_zero (h : l.isHeader = false) : ¬ Encloses unit (l :: ls) 0 i := by
  rintro ⟨-, found, hfound, hheader, -⟩
  obtain rfl : l = found := by simpa using hfound
  rw [h] at hheader
  exact Bool.noConfusion hheader

theorem encloses_zero (h : l.isHeader = true) (hdeep : ∀ x ∈ ls, l.level unit < x.level unit)
    (hi : i < ls.length) : Encloses unit (l :: ls) 0 (i + 1) := by
  refine ⟨Nat.succ_pos i, l, rfl, h, fun m hj hm => ?_⟩
  obtain ⟨m, rfl⟩ : ∃ n, m = n + 1 := ⟨m - 1, by omega⟩
  have hlt : m < ls.length := by omega
  exact ⟨ls[m], by rw [getElem?_cons_succ, getElem?_eq_getElem hlt], hdeep _ (getElem_mem hlt)⟩

theorem encloses_append_left (hi : i < a.length) : Encloses unit (a ++ b) j i ↔ Encloses unit a j i := by
  unfold Encloses
  refine and_congr_right fun hj => ?_
  have hget : ∀ m, m ≤ i → (a ++ b)[m]? = a[m]? := fun m hm => getElem?_append_left (by omega)
  rw [hget j (by omega)]
  refine exists_congr fun h => and_congr_right fun _ => and_congr_right fun _ => ?_
  refine ⟨fun hdeep m hm hmi => ?_, fun hdeep m hm hmi => ?_⟩
  · rw [← hget m hmi]
    exact hdeep m hm hmi
  · rw [hget m hmi]
    exact hdeep m hm hmi

theorem not_encloses_across (hflat : ∀ y ∈ b.head?, ∀ x ∈ a, y.level unit ≤ x.level unit)
    (hj : j < a.length) : ¬ Encloses unit (a ++ b) j (a.length + i) := by
  rintro ⟨-, h, hh, -, hdeep⟩
  obtain ⟨y, hy, hlt⟩ := hdeep a.length hj (by omega)
  rw [getElem?_append_left hj] at hh
  rw [getElem?_append_right (Nat.le_refl _), Nat.sub_self, ← head?_eq_getElem?] at hy
  have hle := hflat y hy h (mem_of_getElem? hh)
  omega

theorem encloses_append_right : Encloses unit (a ++ b) (a.length + j) (a.length + i) ↔ Encloses unit b j i := by
  induction a with
  | nil => simp
  | cons x a ih =>
    have hj : (x :: a).length + j = a.length + j + 1 := by rw [length_cons]; omega
    have hi : (x :: a).length + i = a.length + i + 1 := by rw [length_cons]; omega
    rw [hj, hi, cons_append, encloses_cons_succ, ih]

theorem owns_append_right (hapart : ∀ k, k < a.length → ¬ Encloses unit (a ++ b) k (a.length + i)) :
    Owns unit (a ++ b) (a.length + j) (a.length + i) ↔ Owns unit b j i := by
  unfold Owns
  rw [encloses_append_right]
  refine and_congr_right fun _ => ⟨fun hlast k hk => ?_, fun hlast k hk => ?_⟩
  · have hle := hlast (a.length + k) (encloses_append_right.mpr hk)
    omega
  · by_cases hlt : k < a.length
    · exact absurd hk (hapart k hlt)
    · obtain ⟨k, rfl⟩ : ∃ n, k = a.length + n := ⟨k - a.length, by omega⟩
      have hle := hlast k (encloses_append_right.mp hk)
      omega

theorem owns_append_left (hi : i < a.length) : Owns unit (a ++ b) j i ↔ Owns unit a j i := by
  unfold Owns
  simp only [encloses_append_left hi]

theorem owns_cons_succ : Owns unit (l :: ls) (j + 1) (i + 1) ↔ Owns unit ls j i := by
  unfold Owns
  rw [encloses_cons_succ]
  refine and_congr_right fun _ => ⟨fun hlast k hk => ?_, fun hlast k hk => ?_⟩
  · have hle := hlast (k + 1) (encloses_cons_succ.mpr hk)
    omega
  · cases k with
    | zero => omega
    | succ k =>
      have hle := hlast k (encloses_cons_succ.mp hk)
      omega

theorem owns_zero (h : l.isHeader = true) (hdeep : ∀ x ∈ ls, l.level unit < x.level unit)
    (hi : i < ls.length) : Owns unit (l :: ls) 0 (i + 1) ↔ ¬ ∃ k, Encloses unit ls k i := by
  refine ⟨?_, fun hnone => ⟨encloses_zero h hdeep hi, fun k hk => ?_⟩⟩
  · rintro ⟨-, hlast⟩ ⟨k, hk⟩
    have hle := hlast (k + 1) (encloses_cons_succ.mpr hk)
    omega
  · cases k with
    | zero => exact Nat.le_refl 0
    | succ k => exact absurd ⟨k, encloses_cons_succ.mp hk⟩ hnone

theorem exists_owns_iff : (∃ k, Owns unit ls k i) ↔ ∃ k, Encloses unit ls k i := by
  classical
  refine ⟨fun ⟨k, hk⟩ => ⟨k, hk.1⟩, fun ⟨k, hk⟩ => ⟨Nat.findGreatest (Encloses unit ls · i) i, ?_, fun m hm => ?_⟩⟩
  · exact Nat.findGreatest_spec (P := (Encloses unit ls · i)) hk.1.le hk
  · exact Nat.le_findGreatest hm.1.le hm

end Ownership

/-! ### Forests by places -/

namespace Node

def HasRoot (nodes : List Node) (p : Location) : Prop := ∃ n ∈ nodes, n.location = some p

/-- A node of the forest, at any depth, stands at the place `q` and has a child at the place `p`. -/
inductive HasChild : (nodes : List Node) → (q p : Location) → Prop
  | here {nodes n q p} (hn : n ∈ nodes) (hq : n.location = some q)
      (hp : HasRoot n.body p) : HasChild nodes q p
  | deeper {nodes n q p} (hn : n ∈ nodes)
      (h : HasChild n.body q p) : HasChild nodes q p

/-- A node of the forest, at any depth, stands at the place. -/
inductive Stands : (nodes : List Node) → (p : Location) → Prop
  | here {nodes n p} (hn : n ∈ nodes) (hp : n.location = some p) :
      Stands nodes p
  | deeper {nodes n p} (hn : n ∈ nodes) (h : Stands n.body p) :
      Stands nodes p

theorem HasRoot.stands (h : HasRoot nodes p) : Stands nodes p := by
  obtain ⟨n, hn, hp⟩ := h
  exact .here hn hp

theorem HasChild.stands (h : HasChild nodes q p) : Stands nodes q ∧ Stands nodes p := by
  induction h with
  | here hn hq hp => exact ⟨.here hn hq, .deeper hn hp.stands⟩
  | deeper hn _ ih => exact ⟨.deeper hn ih.1, .deeper hn ih.2⟩

theorem hasRoot_append : HasRoot (a ++ b) p ↔ HasRoot a p ∨ HasRoot b p := by
  simp only [HasRoot, mem_append, or_and_right, exists_or]

theorem hasChild_iff :
    HasChild nodes q p ↔ ∃ n ∈ nodes, (n.location = some q ∧ HasRoot n.body p) ∨ HasChild n.body q p := by
  refine ⟨fun h => ?_, ?_⟩
  · cases h with
    | here hn hq hp => exact ⟨_, hn, .inl ⟨hq, hp⟩⟩
    | deeper hn h => exact ⟨_, hn, .inr h⟩
  · rintro ⟨n, hn, ⟨hq, hp⟩ | h⟩
    · exact .here hn hq hp
    · exact .deeper hn h

theorem hasChild_append : HasChild (a ++ b) q p ↔ HasChild a q p ∨ HasChild b q p := by
  rw [hasChild_iff, hasChild_iff, hasChild_iff]
  simp only [mem_append, or_and_right, exists_or]

theorem stands_iff : Stands nodes p ↔ ∃ n ∈ nodes, n.location = some p ∨ Stands n.body p := by
  refine ⟨fun h => ?_, ?_⟩
  · cases h with
    | here hn hp => exact ⟨_, hn, .inl hp⟩
    | deeper hn h => exact ⟨_, hn, .inr h⟩
  · rintro ⟨n, hn, hp | h⟩
    · exact .here hn hp
    · exact .deeper hn h

theorem stands_append : Stands (a ++ b) p ↔ Stands a p ∨ Stands b p := by
  rw [stands_iff, stands_iff, stands_iff]
  simp only [mem_append, or_and_right, exists_or]

theorem not_stands_nil : ¬ Stands [] p := by
  rw [stands_iff]
  simp

theorem not_hasChild_nil : ¬ HasChild [] q p := by
  rw [hasChild_iff]
  simp

end Node

theorem hasRoot_members : HasRoot (s.members nodes) p ↔
      ∃ n ∈ nodes, n.location = some p ∧ ¬ (s.isType = true ∧ n.isComment = true) := by
  cases s with
  | structType name =>
    simp only [HasRoot, Statement.members, mem_filter, Statement.isType, true_and,
      Bool.not_eq_true, Bool.not_eq_eq_eq_not, Bool.not_true]
    exact exists_congr fun n => ⟨fun h => ⟨h.1.1, h.2, h.1.2⟩, fun h => ⟨⟨h.1, h.2.2⟩, h.2.1⟩⟩
  | _ => simp [HasRoot, Statement.members, Statement.isType]

theorem hasChild_members (hcomments : ∀ n ∈ nodes, n.isComment = true → n.body = []) :
    HasChild (s.members nodes) q p ↔ HasChild nodes q p := by
  cases s with
  | structType name =>
    rw [hasChild_iff, hasChild_iff]
    refine exists_congr fun n => ⟨fun h => ⟨(mem_filter.mp h.1).1, h.2⟩, fun ⟨hn, h⟩ => ?_⟩
    refine ⟨mem_filter.mpr ⟨hn, ?_⟩, h⟩
    by_contra hcomment
    have hbody := hcomments n hn (by simpa using hcomment)
    rw [hbody] at h
    rcases h with ⟨-, hroot⟩ | hchild
    · exact not_stands_nil hroot.stands
    · exact not_hasChild_nil hchild
  | _ => rfl

theorem stands_of_members (h : Stands (s.members nodes) p) : Stands nodes p := by
  cases s with
  | structType name =>
    obtain ⟨n, hn, hstands⟩ := stands_iff.mp h
    exact stands_iff.mpr ⟨n, (mem_filter.mp hn).1, hstands⟩
  | _ => exact h

/-! ### The rule -/

def places (lines : List SourceLine) : List Location := lines.flatMap fun l => l.map Token.location

/-- The forest is the one that the off-side rule gives for the lines. -/
structure Arranged (unit : Option Nat) (lines : List SourceLine) (nodes : List Node) : Prop where
  located : ∀ p, Stands nodes p → p ∈ places lines
  comments : ∀ n ∈ nodes, n.isComment = true → n.body = []
  kinds : ∀ (i : Nat) (l : SourceLine) (p : Location), lines[i]? = some l → l.place? = some p →
    ∀ n ∈ nodes, n.location = some p → n.isComment = l.isRemark
  roots : ∀ (i : Nat) (l : SourceLine) (p : Location), lines[i]? = some l → l.place? = some p →
    (HasRoot nodes p ↔ ¬ ∃ k, Encloses unit lines k i)
  children : ∀ (i j : Nat) (l h : SourceLine) (p q : Location), lines[i]? = some l →
    lines[j]? = some h → l.place? = some p → h.place? = some q → (HasChild nodes q p ↔
      Owns unit lines j i ∧ ¬ (l.isRemark = true ∧ h.opensType = true))

theorem places_append (a b : List SourceLine) : places (a ++ b) = places a ++ places b :=
  flatMap_append

theorem place?_mem (h : Token.place? ts = some p) : ∃ t ∈ ts, t.location = p := by
  cases ts with
  | nil => simp [Token.place?] at h
  | cons t ts =>
    rw [Token.place?] at h
    split_ifs at h with hmutable
    · obtain ⟨u, hu, rfl⟩ := map_eq_some_iff.mp h
      exact ⟨u, mem_cons_of_mem _ (mem_of_head? hu), rfl⟩
    · exact ⟨t, mem_cons_self, some.inj h⟩

theorem SourceLine.mem_of_place? (h : l.place? = some p) : p ∈ l.map Token.location := by
  obtain ⟨t, ht, rfl⟩ := place?_mem h
  exact mem_map_of_mem (mem_filter.mp ht).1

theorem mem_places (hl : lines[i]? = some l) (hp : l.place? = some p) : p ∈ places lines :=
  mem_flatMap.mpr ⟨l, mem_of_getElem? hl, l.mem_of_place? hp⟩

theorem SourceLine.Says.trailing (h : l.Says unit reader floor types siblings s location comments)
    (hnodup : (l.map Token.location).Nodup) :
    ∀ n ∈ comments, n.isComment = true ∧ n.body = [] ∧
      ∃ p ∈ l.map Token.location, n.location = some p ∧ p ≠ location := by
  obtain ⟨ts, trailing, hink, -, -, hplace, rfl⟩ := h.written
  intro n hn
  obtain ⟨t, ht, rfl⟩ : ∃ t ∈ trailing, t.remark = n := by
    cases s with
    | comment text => simp [Statement.remarks] at hn
    | _ => exact mem_map.mp hn
  obtain ⟨u, hu, rfl⟩ := place?_mem hplace
  have hdistinct : ((ts ++ trailing).map Token.location).Nodup := by
    rw [← hink]
    exact hnodup.sublist (filter_sublist.map _)
  rw [map_append] at hdistinct
  have hdisjoint := disjoint_of_nodup_append hdistinct
  have hmem : t ∈ Token.ink l := by rw [hink]; exact mem_append_right _ ht
  refine ⟨rfl, rfl, t.location, mem_map_of_mem (mem_filter.mp hmem).1, rfl, fun heq => ?_⟩
  exact hdisjoint (mem_map_of_mem hu) (heq ▸ mem_map_of_mem ht)

theorem Arranged.append {a b : List SourceLine} {m n : List Node} (ha : Arranged unit a m)
    (hb : Arranged unit b n) (hnodup : (places (a ++ b)).Nodup)
    (hapart : ∀ k i, k < a.length → ¬ Encloses unit (a ++ b) k (a.length + i)) :
    Arranged unit (a ++ b) (m ++ n) := by
  rw [places_append] at hnodup
  have hdisjoint := disjoint_of_nodup_append hnodup
  -- nodes of one part do not stand at places of the other part
  have hleft : ∀ {p}, p ∈ places a → ¬ Stands n p := fun hp hn => hdisjoint hp (hb.located _ hn)
  have hright : ∀ {p}, p ∈ places b → ¬ Stands m p := fun hp hm => hdisjoint (ha.located _ hm) hp
  have hsplit : ∀ {i l}, (a ++ b)[i]? = some l →
      (i < a.length ∧ a[i]? = some l) ∨ ∃ k, i = a.length + k ∧ b[k]? = some l := by
    intro i l hi
    by_cases hlt : i < a.length
    · exact .inl ⟨hlt, by rwa [getElem?_append_left hlt] at hi⟩
    · refine .inr ⟨i - a.length, by omega, ?_⟩
      rwa [getElem?_append_right (by omega)] at hi
  refine ⟨?_, ?_, ?_, ?_, ?_⟩
  · intro p hp
    rw [places_append, mem_append]
    exact (stands_append.mp hp).imp (ha.located p) (hb.located p)
  · intro x hx
    exact (mem_append.mp hx).elim (ha.comments x) (hb.comments x)
  · intro i l p hi hp x hx hxp
    rcases hsplit hi with ⟨-, hi⟩ | ⟨k, -, hi⟩ <;> rcases mem_append.mp hx with hx | hx
    · exact ha.kinds i l p hi hp x hx hxp
    · exact absurd (.here hx hxp) (hleft (mem_places hi hp))
    · exact absurd (.here hx hxp) (hright (mem_places hi hp))
    · exact hb.kinds k l p hi hp x hx hxp
  · intro i l p hi hp
    rw [hasRoot_append]
    rcases hsplit hi with ⟨hlt, hi⟩ | ⟨k, rfl, hk⟩
    · have hnone : ¬ HasRoot n p := fun h => hleft (mem_places hi hp) h.stands
      simp only [encloses_append_left hlt, hnone, or_false]
      exact ha.roots i l p hi hp
    · have hnone : ¬ HasRoot m p := fun h => hright (mem_places hk hp) h.stands
      simp only [hnone, false_or]
      rw [hb.roots k l p hk hp, not_iff_not]
      refine ⟨fun ⟨j, hj⟩ => ⟨a.length + j, encloses_append_right.mpr hj⟩, fun ⟨j, hj⟩ => ?_⟩
      by_cases hlt : j < a.length
      · exact absurd hj (hapart j k hlt)
      · obtain ⟨j, rfl⟩ : ∃ x, j = a.length + x := ⟨j - a.length, by omega⟩
        exact ⟨j, encloses_append_right.mp hj⟩
  · intro i j l h p q hi hj hp hq
    rw [hasChild_append]
    rcases hsplit hi with ⟨hlt, hi⟩ | ⟨k, rfl, hk⟩
    · have hnone : ¬ HasChild n q p := fun hc => hleft (mem_places hi hp) hc.stands.2
      simp only [owns_append_left hlt, hnone, or_false]
      rcases hsplit hj with ⟨-, hj⟩ | ⟨k, rfl, hk⟩
      · exact ha.children i j l h p q hi hj hp hq
      · have hchild : ¬ HasChild m q p := fun hc => hright (mem_places hk hq) hc.stands.1
        have howns : ¬ Owns unit a (a.length + k) i := fun ⟨⟨hbefore, _⟩, _⟩ => by omega
        simp only [hchild, howns, false_and]
    · have hnone : ¬ HasChild m q p := fun hc => hright (mem_places hk hp) hc.stands.2
      simp only [hnone, false_or]
      rcases hsplit hj with ⟨hlt, hj⟩ | ⟨x, rfl, hx⟩
      · have hchild : ¬ HasChild n q p := fun hc => hleft (mem_places hj hq) hc.stands.1
        have howns : ¬ Owns unit (a ++ b) j (a.length + k) := fun ho => hapart j k hlt ho.1
        simp only [hchild, howns, false_and]
      · rw [owns_append_right fun y hy => hapart y k hy]
        exact hb.children k x l h p q hk hx hp hq

theorem not_encloses_self_or_before {k : Nat} : ¬ Encloses unit lines k 0 := fun h => Nat.not_lt_zero k h.1

theorem Node.isComment_mk (s : Statement) (location : Option Location) (body : List Node) :
    (mk s location body).isComment = s.isComment := by
  cases s <;> rfl

theorem Statement.isComment_of_opensBlock (h : s.opensBlock = true) : s.isComment = false := by
  cases s with
  | comment text => exact Bool.noConfusion h
  | _ => rfl

theorem Node.not_hasChild_of_bodies {ns : List Node} (h : ∀ n ∈ ns, n.body = []) (q p : Location) :
    ¬ HasChild ns q p := by
  intro hc
  obtain ⟨n, hn, ⟨-, hroot⟩ | hc⟩ := hasChild_iff.mp hc <;> rw [h n hn] at *
  · exact not_stands_nil hroot.stands
  · exact not_hasChild_nil hc

theorem Arranged.leaf (h : l.Says unit reader floor types siblings s location comments)
    (hnodup : (l.map Token.location).Nodup) :
    Arranged unit [l] (.mk s (some location) [] :: comments) := by
  obtain ⟨-, hremark, -, hplace⟩ := h.kind
  have htrailing := h.trailing hnodup
  have hplaces : places [l] = l.map Token.location := by simp [places]
  -- every node has an empty block
  have hbody : ∀ n ∈ Node.mk s (some location) [] :: comments, n.body = [] := by
    intro n hn
    rcases mem_cons.mp hn with rfl | hn
    · rfl
    · exact (htrailing n hn).2.1
  have hline : ∀ {i : Nat} {x : SourceLine}, [l][i]? = some x → i = 0 ∧ x = l := by
    intro i x hx
    cases i with
    | zero => exact ⟨rfl, (some.inj hx).symm⟩
    | succ i => simp at hx
  refine ⟨?_, fun n hn _ => hbody n hn, ?_, ?_, ?_⟩
  · intro p hp
    rw [hplaces]
    obtain ⟨n, hn, hnp | hnp⟩ := stands_iff.mp hp
    · rcases mem_cons.mp hn with rfl | hn
      · exact some.inj hnp ▸ l.mem_of_place? hplace
      · obtain ⟨-, -, q, hq, hnq, -⟩ := htrailing n hn
        rw [hnq] at hnp
        exact some.inj hnp ▸ hq
    · rw [hbody n hn] at hnp
      exact absurd hnp not_stands_nil
  · intro i x p hx hp n hn hnp
    obtain ⟨-, rfl⟩ := hline hx
    rcases mem_cons.mp hn with rfl | hn
    · rw [isComment_mk, hremark]
    · obtain ⟨-, -, q, -, hnq, hne⟩ := htrailing n hn
      rw [hplace] at hp
      rw [hnq] at hnp
      exact absurd ((some.inj hnp).trans (some.inj hp).symm) hne
  · intro i x p hx hp
    obtain ⟨rfl, rfl⟩ := hline hx
    refine iff_of_true ⟨_, mem_cons_self, hplace.symm.trans hp⟩ ?_
    exact fun ⟨k, hk⟩ => not_encloses_self_or_before hk
  · intro i j x y p q hx hy hp hq
    obtain ⟨rfl, rfl⟩ := hline hx
    refine iff_of_false (not_hasChild_of_bodies hbody q p) ?_
    exact fun ⟨howns, _⟩ => not_encloses_self_or_before howns.1

theorem Arranged.hasRoot_kept {x : SourceLine} (hblock : Arranged unit inner block)
    (hx : inner[i]? = some x) (hp : x.place? = some p) (hcomments : ∀ n ∈ comments, n.location ≠ some p) :
    HasRoot (s.members (comments ++ block)) p ↔
      (¬ ∃ k, Encloses unit inner k i) ∧ ¬ (x.isRemark = true ∧ s.isType = true) := by
  rw [hasRoot_members, ← hblock.roots i x p hx hp]
  refine ⟨?_, ?_⟩
  · rintro ⟨n, hn, hnp, hkept⟩
    rcases mem_append.mp hn with hn | hn
    · exact absurd hnp (hcomments n hn)
    · rw [hblock.kinds i x p hx hp n hn hnp, and_comm] at hkept
      exact ⟨⟨n, hn, hnp⟩, hkept⟩
  · rintro ⟨⟨n, hn, hnp⟩, hkept⟩
    rw [← hblock.kinds i x p hx hp n hn hnp, and_comm] at hkept
    exact ⟨n, mem_append_right _ hn, hnp, hkept⟩

theorem Arranged.stands_kept (hblock : Arranged unit inner block)
    (h : l.Says unit reader floor types siblings s location comments)
    (hnodup : (l.map Token.location).Nodup) (hp : Stands (s.members (comments ++ block)) p) :
    (p ∈ l.map Token.location ∧ p ≠ location) ∨ p ∈ places inner := by
  rcases stands_append.mp (stands_of_members hp) with hp | hp
  · obtain ⟨n, hn, hnp⟩ := stands_iff.mp hp
    obtain ⟨-, hbody, q, hq, hnq, hne⟩ := h.trailing hnodup n hn
    rw [hbody, hnq] at hnp
    rcases hnp with hnp | hnp
    · obtain rfl := some.inj hnp
      exact .inl ⟨hq, hne⟩
    · exact absurd hnp not_stands_nil
  · exact .inr (hblock.located p hp)

theorem Arranged.header (h : l.Says unit reader floor types siblings s location comments)
    (hopens : s.opensBlock = true) (hnodup : (places (l :: inner)).Nodup)
    (hdeep : ∀ x ∈ inner, l.level unit < x.level unit) (hblock : Arranged unit inner block) :
    Arranged unit (l :: inner) [.mk s (some location) (s.members (comments ++ block))] := by
  obtain ⟨hheader, hremark, htype, hplace⟩ := h.kind
  rw [hopens] at hheader
  have hsplit : places (l :: inner) = l.map Token.location ++ places inner := rfl
  rw [hsplit] at hnodup
  have hdisjoint := disjoint_of_nodup_append hnodup
  have hline := (nodup_append.mp hnodup).1
  have htrailing := h.trailing hline
  have hcomments : ∀ n ∈ comments ++ block, n.isComment = true → n.body = [] := by
    intro n hn hcomment
    rcases mem_append.mp hn with hn | hn
    · exact (htrailing n hn).2.1
    · exact hblock.comments n hn hcomment
  have hnotHere : ¬ Stands (s.members (comments ++ block)) location := fun hp =>
    (hblock.stands_kept h hline hp).elim (fun h => h.2 rfl) fun hp => hdisjoint (l.mem_of_place? hplace) hp
  have hbelow : ∀ {i : Nat} {x : SourceLine} {p : Location}, inner[i]? = some x →
      x.place? = some p → p ∉ l.map Token.location := fun hx hp hl => hdisjoint hl (mem_places hx hp)
  have hlocation := l.mem_of_place? hplace
  refine ⟨?_, ?_, ?_, ?_, ?_⟩
  · intro p hp
    rw [hsplit, mem_append]
    obtain ⟨n, hn, hnp⟩ := stands_iff.mp hp
    obtain rfl := mem_singleton.mp hn
    rcases hnp with hnp | hnp
    · exact .inl (some.inj hnp ▸ hlocation)
    · exact (hblock.stands_kept h hline hnp).imp And.left id
  · intro n hn hcomment
    obtain rfl := mem_singleton.mp hn
    rw [isComment_mk, Statement.isComment_of_opensBlock hopens] at hcomment
    exact Bool.noConfusion hcomment
  · intro i x p hx hp n hn hnp
    obtain rfl := mem_singleton.mp hn
    cases i with
    | zero =>
      obtain rfl := some.inj hx
      rw [isComment_mk, hremark]
    | succ i => exact absurd hlocation (some.inj hnp ▸ hbelow hx hp)
  · intro i x p hx hp
    cases i with
    | zero =>
      obtain rfl := some.inj hx
      refine iff_of_true ⟨_, mem_cons_self, hplace.symm.trans hp⟩ ?_
      exact fun ⟨k, hk⟩ => not_encloses_self_or_before hk
    | succ i =>
      refine iff_of_false ?_ ?_
      · rintro ⟨n, hn, hnp⟩
        obtain rfl := mem_singleton.mp hn
        exact hbelow hx hp (some.inj hnp ▸ hlocation)
      · rw [not_not]
        have hx : inner[i]? = some x := hx
        exact ⟨0, encloses_zero hheader hdeep (List.getElem?_eq_some_iff.mp hx).1⟩
  · intro i j x y p q hx hy hp hq
    rw [hasChild_iff]
    simp only [mem_singleton, exists_eq_left, Node.location, Node.body]
    cases i with
    | zero =>
      obtain rfl := some.inj hx
      obtain rfl := some.inj (hplace.symm.trans hp)
      refine iff_of_false ?_ fun ⟨howns, _⟩ => not_encloses_self_or_before howns.1
      rintro (⟨-, hroot⟩ | hchild)
      · exact hnotHere hroot.stands
      · exact hnotHere hchild.stands.2
    | succ i =>
      have hx : inner[i]? = some x := hx
      have hi : i < inner.length := (List.getElem?_eq_some_iff.mp hx).1
      rw [hasChild_members hcomments, hasChild_append]
      have hnone : ¬ HasChild comments q p :=
        not_hasChild_of_bodies (fun n hn => (htrailing n hn).2.1) q p
      simp only [hnone, false_or]
      cases j with
      | zero =>
        obtain rfl := some.inj hy
        obtain rfl := some.inj (hplace.symm.trans hq)
        have hinner : ¬ HasChild block location p := fun hc =>
          hdisjoint hlocation (hblock.located _ hc.stands.1)
        have hcommentPlace : ∀ n ∈ comments, n.location ≠ some p := by
          intro n hn hnp
          obtain ⟨-, -, r, hr, hnr, -⟩ := htrailing n hn
          exact hbelow hx hp (some.inj (hnr.symm.trans hnp) ▸ hr)
        simp only [hinner, or_false, true_and, htype]
        rw [hblock.hasRoot_kept hx hp hcommentPlace, owns_zero hheader hdeep hi]
      | succ j =>
        have hy : inner[j]? = some y := hy
        have hne : ¬ some location = some q := fun heq =>
          hbelow hy hq (some.inj heq ▸ hlocation)
        simp only [hne, false_and, false_or, owns_cons_succ]
        exact hblock.children i j x y p q hx hy hp hq

section

variable (h : Outlined unit reader floor types done lines nodes after)
include h

theorem Outlined.exists_told : ∀ x ∈ lines, ∃ reader floor' types done s location comments,
    floor ≤ floor' ∧ x.Says unit reader floor' types done s location comments := by
  induction h with
  | nil => exact forall_mem_nil _
  | leaf _ htold _ ih => exact forall_mem_cons.mpr ⟨⟨_, _, _, _, _, _, _, Nat.le_refl _, htold⟩, ih⟩
  | header _ htold _ _ _ _ ihblock ih =>
    refine forall_mem_cons.mpr ⟨⟨_, _, _, _, _, _, _, Nat.le_refl _, htold⟩, forall_mem_append.mpr ⟨fun x hx => ?_, ih⟩⟩
    obtain ⟨reader, floor', types, done, s, location, comments, hle, hx⟩ := ihblock x hx
    exact ⟨reader, floor', types, done, s, location, comments, (Nat.le_succ_of_le htold.deep).trans hle, hx⟩

theorem Outlined.indented : ∀ x ∈ lines, unit.getD 1 ∣ x.width ∧ floor ≤ x.level unit := by
  intro x hx
  obtain ⟨_, _, _, _, _, _, _, hle, htold⟩ := h.exists_told x hx
  exact ⟨htold.divides, hle.trans htold.deep⟩

theorem Outlined.place? : ∀ x ∈ lines, ∃ p, x.place? = some p := by
  intro x hx
  obtain ⟨_, _, _, _, _, _, _, -, htold⟩ := h.exists_told x hx
  exact ⟨_, htold.kind.2.2.2⟩

theorem Outlined.arranged (hnodup : (places lines).Nodup) : Arranged unit lines nodes := by
  induction h with
  | nil =>
    refine ⟨fun p hp => absurd hp not_stands_nil, by simp, by simp, by simp, by simp⟩
  | @leaf reader floor types after done nodes l ls s location comments hopens htold hrest ih =>
    have hlines : l :: ls = [l] ++ ls := rfl
    rw [hlines, places_append] at hnodup
    have hboth := nodup_append.mp hnodup
    have hline : (l.map Token.location).Nodup := by simpa [places] using hboth.1
    refine (Arranged.leaf htold hline).append (ih hboth.2.1) (places_append _ _ ▸ hnodup) ?_
    intro k i hk
    obtain rfl : k = 0 := by simpa using hk
    exact not_encloses_zero (htold.kind.1.trans hopens)
  | @header reader floor types between after done block nodes l inner ls s location comments hopens
      htold hblock hfilled hnext hrest ihblock ih =>
      have hlines : l :: (inner ++ ls) = (l :: inner) ++ ls := rfl
      rw [hlines] at hnodup ⊢
      have hboth := hnodup
      rw [places_append, nodup_append] at hboth
      have hinner : (places inner).Nodup := (nodup_append.mp hboth.1).2.1
      have hdeep : ∀ x ∈ inner, l.level unit < x.level unit := fun x hx => (hblock.indented x hx).2
      refine (Arranged.header htold hopens hboth.1 hdeep (ihblock hinner)).append (ih hboth.2.1) hnodup ?_
      intro k i hk
      refine not_encloses_across ?_ hk
      intro y hy x hx
      have hflat := hnext y hy
      rcases mem_cons.mp hx with rfl | hx
      · exact hflat
      · exact hflat.trans (Nat.le_of_lt (hdeep x hx))

end

theorem Tokenized.places_nodup {l : Location} {cs rest : List Char} {tokens : List Token}
    (h : Tokenized l cs tokens rest) : (places (sourceLines tokens)).Nodup := by
  have hplaces : places (sourceLines tokens) = (sourceLines tokens).flatten.map Token.location := by
    rw [places, map_flatten, flatMap_def]
  rw [hplaces]
  refine List.Nodup.sublist ((flatten_sourceLines_sublist tokens).map _) ?_
  exact pairwise_map.mpr (h.ordered.2.imp fun hbefore => hbefore.ne)

theorem place?_nodup (hnodup : (places lines).Nodup) (hplace : ∀ l ∈ lines, ∃ p, l.place? = some p) :
    (lines.map place?).Nodup := by
  induction lines with
  | nil => exact .nil
  | cons l lines ih =>
    have hsplit := nodup_append.mp (show (l.map Token.location ++ places lines).Nodup from hnodup)
    refine nodup_cons.mpr ⟨?_, ih hsplit.2.1 fun x hx => hplace x (mem_cons_of_mem _ hx)⟩
    intro hmem
    obtain ⟨x, hx, heq⟩ := mem_map.mp hmem
    obtain ⟨p, hp⟩ := hplace x (mem_cons_of_mem _ hx)
    have hp' : l.place? = some p := heq ▸ hp
    exact hsplit.2.2 p (l.mem_of_place? hp') p (mem_flatMap.mpr ⟨x, hx, x.mem_of_place? hp⟩) rfl

/-- The off-side rule. For a text that is split and read, the lines are those of the text; the unit
is the width of the first indented one, and every width is a multiple of it; and a line says a
statement whose node is the child of the header that owns the line, or a tree of the program when
there is none. Comments that a named type would own are dropped. -/
theorem offside_rule {source file : String} {quoted : List String} {tokens : List Token}
    {program : Program} (htokens : tokenize source file = .ok tokens)
    (hprogram : readProgram tokens file quoted = .ok program) :
    let lines := sourceLines tokens
    lines.map Token.chars = textLines source.toList ∧
    (∀ l ∈ lines, l.width = ((Token.chars l).takeWhile Scan.isGap).length) ∧
    program.unit = unitWidth lines ∧ (∀ l ∈ lines, program.unit.getD 0 ∣ l.width) ∧
    (∀ l ∈ lines, ∃ p, l.place? = some p) ∧ (lines.map SourceLine.place?).Nodup ∧
    (∀ (i : Nat) (l : SourceLine) (p : Location), lines[i]? = some l → l.place? = some p →
      (Node.HasRoot program.nodes p ↔ ¬ ∃ j, Owns program.unit lines j i)) ∧
    ∀ (i j : Nat) (l h : SourceLine) (p q : Location), lines[i]? = some l → lines[j]? = some h →
      l.place? = some p → h.place? = some q → (Node.HasChild program.nodes q p ↔
        Owns program.unit lines j i ∧ ¬ (l.isRemark = true ∧ h.opensType = true)) := by
  intro lines
  have htokenized := tokenize_tokenized htokens
  obtain ⟨hunit, ⟨after, houtlined⟩, -⟩ := readProgram_outlined htokenized.scanned hprogram
  have hnodup : (places lines).Nodup := htokenized.places_nodup
  have harranged := houtlined.arranged hnodup
  refine ⟨tokenize_textLines htokens, fun l hl => htokenized.width_eq hl, hunit, ?_, houtlined.place?,
    place?_nodup hnodup houtlined.place?, ?_, harranged.children⟩
  · intro l hl
    have hdvd := (houtlined.indented l hl).1
    cases hfixed : program.unit with
    | none =>
      rw [hunit, unitWidth, find?_eq_none] at hfixed
      have hflush : l.width = 0 := by simpa using hfixed l.width (mem_map_of_mem hl)
      rw [hflush]
      exact Nat.dvd_zero _
    | some width =>
      rw [hfixed] at hdvd
      exact hdvd
  · intro i l p hl hp
    rw [harranged.roots i l p hl hp, exists_owns_iff]

/-- A method and its statement: the second line is the child of the first. -/
theorem offside_rule_of_method : ∃ tokens program,
    tokenize "METHOD m:\n  PASS" "f" = .ok tokens ∧ readProgram tokens "f" [] = .ok program ∧
      program.unit = some 2 ∧ Node.HasChild program.nodes ⟨"f", 1, 1⟩ ⟨"f", 2, 3⟩ := by
  let header : SourceLine := [⟨.keyword, "METHOD", ⟨"f", 1, 1⟩⟩, ⟨.spaces, " ", ⟨"f", 1, 7⟩⟩,
    ⟨.word, "m", ⟨"f", 1, 8⟩⟩, ⟨.colon, ":", ⟨"f", 1, 9⟩⟩]
  let statement : SourceLine := [⟨.spaces, "  ", ⟨"f", 2, 1⟩⟩, ⟨.keyword, "PASS", ⟨"f", 2, 3⟩⟩]
  obtain ⟨tokens, program, htokens, hprogram, hlines⟩ := exists_read "METHOD m:\n  PASS" "f"
    (fun tokens _ => sourceLines tokens = [header, statement]) (by decide +kernel)
  obtain ⟨-, -, hunit, -, -, -, -, hchild⟩ := offside_rule htokens hprogram
  rw [hlines] at hunit hchild
  have hwidth : program.unit = some 2 := hunit.trans (by decide +kernel)
  refine ⟨_, program, htokens, hprogram, hwidth, ?_⟩
  refine (hchild 1 0 statement header _ _ rfl rfl (by decide +kernel) (by decide +kernel)).mpr
    ⟨⟨?_, ?_⟩, by decide +kernel⟩
  · rw [hwidth]
    refine ⟨by decide, header, rfl, by decide +kernel, fun m hm hle => ?_⟩
    obtain rfl : m = 1 := by omega
    exact ⟨statement, rfl, by decide +kernel⟩
  · intro k hk
    have hlt := hk.1
    omega

end CirOutline
