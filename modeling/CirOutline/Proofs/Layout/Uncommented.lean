import CirOutline.Proofs.Alike
import CirOutline.Proofs.Layout.Writing
import CirOutline.Proofs.Token.Comments

/-!
Outlines without comments. A comment is a node of its own beside the statements of its block, and no
rule of the outline looks at it: whether a branch may follow, where a block ends and what a block
has to hold is decided by the other lines. So lines without their comments outline the forest without
its comment nodes.
-/

namespace CirOutline

open List Option Mark Statement

variable {ns : List Node} {s : Statement} {ts : List Token} {ms ls : List SourceLine}

/-- A forest and the same without its comments. The block of a named type has none. -/
inductive Node.AllUncommented : List Node → List Node → Prop
  | nil : AllUncommented [] []
  | comment {n ns ms} (hn : n.isComment = true) (hns : AllUncommented ns ms) :
      AllUncommented (n :: ns) ms
  | cons {s location location' body body' ns ms}
      (hs : s.isComment = false) (hmember : s.isType = true → ∀ n ∈ body, n.isComment = false)
      (hbody : AllUncommented body body') (hns : AllUncommented ns ms) :
      AllUncommented (.mk s location body :: ns) (.mk s location' body' :: ms)

namespace Node.AllUncommented

variable {ms : List Node}

theorem append {as bs : List Node} (h : AllUncommented ns ms) (hab : AllUncommented as bs) :
    AllUncommented (ns ++ as) (ms ++ bs) := by
  induction h with
  | nil => exact hab
  | comment hn _ ih => exact .comment hn ih
  | cons hs hmember hbody _ _ ih => exact .cons hs hmember hbody ih

theorem of_comments (h : ∀ n ∈ ns, n.isComment = true) : AllUncommented ns [] := by
  induction ns with
  | nil => exact .nil
  | cons n ns ih =>
    rw [forall_mem_cons] at h
    exact .comment h.1 (ih h.2)

section

variable (h : AllUncommented ns ms)
include h

theorem plain : ∀ m ∈ ms, m.isComment = false := by
  induction h with
  | nil => simp
  | comment _ _ ih => exact ih
  | cons hs _ _ _ _ ih =>
    rw [forall_mem_cons, Node.isComment_mk]
    exact ⟨hs, ih⟩

theorem statements (hplain : ∀ n ∈ ns, n.isComment = false) :
    List.Forall₂ (fun n m : Node => n.statement.Alike m.statement) ns ms := by
  induction h with
  | nil => exact .nil
  | comment hn _ _ =>
    rw [forall_mem_cons, hn] at hplain
    exact Bool.noConfusion hplain.1
  | cons _ _ _ _ _ ih =>
    rw [forall_mem_cons] at hplain
    exact .cons (.refl _) (ih hplain.2)

theorem filter_comments : AllUncommented (ns.filter fun n => !n.isComment) ms := by
  induction h with
  | nil => exact .nil
  | comment hn _ ih =>
    rw [filter_cons_of_neg (by simp [hn])]
    exact ih
  | cons hs hmember hbody _ _ ih =>
    rw [filter_cons_of_pos (by simp [Node.isComment_mk, hs])]
    exact .cons hs hmember hbody ih

theorem branchMayFollow_eq : branchMayFollow ns = branchMayFollow ms := by
  have hplain : ∀ n ∈ ns.filter fun n => !n.isComment, n.isComment = false := by simp
  have hkinds := (h.filter_comments.statements hplain).imp fun _ _ => Node.kinds_of_alike
  rw [← branchMayFollow_congr hkinds, branchMayFollow, branchMayFollow, ← filter_reverse, find?_filter]
  simp only [and_self, Bool.decide_eq_true]

end

end Node.AllUncommented

theorem Node.AllUncommented.members {ms : List Node} (h : AllUncommented ns ms) (s : Statement) :
    AllUncommented (s.members ns) (s.members ms) := by
  cases s with
  | structType name =>
    have hall : (ms.filter fun m => !m.isComment) = ms :=
      filter_eq_self.mpr fun m hm => by simp [h.plain m hm]
    rw [Statement.members, Statement.members, hall]
    exact h.filter_comments
  | _ => exact h

theorem Statement.isComment_of_mem_members (ns : List Node) (hs : s.isType = true) :
    ∀ n ∈ s.members ns, n.isComment = false := by
  cases s with
  | structType name => exact fun n hn => by simpa using of_mem_filter hn
  | _ => cases hs

theorem Node.AllUncommented.filled {ms : List Node} (h : AllUncommented ns ms) (hs : s.Filled ns) :
    s.Filled ms := by
  cases s with
  | structType name =>
    have hplain := isComment_of_mem_members (s := .structType name) ns rfl
    exact hs.of_length ((h.members _).statements hplain).length_eq
  | _ => trivial

theorem Statement.Allowed.of_branch {reader : LineReader} {level : Nat} {types : List String}
    {ms : List Node} (h : branchMayFollow ns = branchMayFollow ms)
    (hallowed : s.Allowed reader level ns types) : s.Allowed reader level ms types := by
  cases s with
  | elseIf | otherwise => exact ⟨hallowed.1, h ▸ hallowed.2⟩
  | _ => exact hallowed

/-! ### What a line says without its comment -/

theorem Mark.Fits.of_alike {mark : Mark} {t u : Token} (h : t.Alike u) (hfits : mark.Fits t) : mark.Fits u := by
  cases mark with
  | gap => exact h.kind.symm.trans hfits
  | keyword k =>
    rw [Fits, ← h.keyword?]
    exact hfits
  | symbol kind => exact h.kind.symm.trans hfits
  | bracket text => exact h.raw.symm.trans hfits
  | word text | item text | remark text => exact ⟨h.kind ▸ hfits.1, h.raw ▸ hfits.2⟩
  | copy v =>
    simp only [Fits, Token.agrees, h.kind, h.raw] at hfits ⊢
    exact hfits

theorem Statement.Spelled.of_alike {us : List Token} (h : s.Spelled ts)
    (halike : List.Forall₂ Token.Alike ts us) : s.Spelled us := by
  obtain ⟨loose, hfits⟩ := h
  refine ⟨loose, ?_⟩
  generalize ink (s.marks loose) = marks at hfits ⊢
  induction halike generalizing marks with
  | nil => exact hfits
  | cons hfirst _ ih =>
    obtain ⟨mark, marks, hmark, hrest, rfl⟩ := forall₂_cons_right_iff.mp hfits
    exact .cons (hmark.of_alike hfirst) (ih marks hrest)

theorem Token.place?_of_alike {us : List Token} {location : Location}
    (h : List.Forall₂ Token.Alike ts us) (hplace : Token.place? ts = some location) :
    ∃ location', Token.place? us = some location' := by
  cases h with
  | nil => simp [Token.place?] at hplace
  | @cons t u ts us hfirst hrest =>
    rw [Token.place?, hfirst.keyword?] at hplace
    rw [Token.place?]
    split_ifs at hplace ⊢
    · cases hrest with
      | nil => simp at hplace
      | @cons _ v _ _ _ _ => exact ⟨v.location, rfl⟩
    · exact ⟨u.location, rfl⟩

theorem Mark.last_of_symbol {marks : List Mark} (h : List.Forall₂ Fits (ink marks) ts)
    (kind : TokenKind) (hlast : marks.getLast? = some (symbol kind)) (hkind : kind ≠ .comment) :
    ∀ t ∈ ts.getLast?, t.kind ≠ .comment := by
  obtain ⟨front, rfl⟩ := getLast?_eq_some_iff.mp hlast
  rw [ink_append] at h
  obtain ⟨before, after, -, hafter, rfl⟩ := forall₂_append_split h
  obtain ⟨t, rest, ht, hrest, rfl⟩ := forall₂_cons_left_iff.mp hafter
  obtain rfl := forall₂_nil_left_iff.mp hrest
  have ht : t.kind = kind := ht
  simpa [ht] using hkind

def Mark.Coding : Mark → Prop
  | symbol kind => kind ≠ .comment
  | copy u => u.kind ≠ .comment
  | bracket _ | remark _ => False
  | _ => True

theorem Mark.Coding.kind_ne_comment {mark : Mark} {t : Token} (h : mark.Coding) (hfits : mark.Fits t) :
    t.kind ≠ .comment := by
  cases mark with
  | gap => exact fun hkind => TokenKind.noConfusion (hkind.symm.trans hfits)
  | keyword k =>
    obtain ⟨found, hfound, -⟩ := map_eq_some_iff.mp hfits
    simp [kind_of_keyword? hfound]
  | symbol kind => exact fun hkind => h (hfits.symm.trans hkind)
  | word text => simp [hfits.1]
  | item text => rcases hfits.1 with hkind | hkind <;> simp [hkind]
  | copy u =>
    have hagrees : t.kind = u.kind ∧ t.raw = u.raw := by simpa [Fits, Token.agrees] using hfits
    rw [hagrees.1]
    exact h
  | bracket text | remark text => exact h.elim

theorem Mark.coding_of_captured {stop : Token → Bool} {run : List Token}
    (h : Token.Captured stop run) : ∀ mark ∈ Mark.run run, mark.Coding := by
  rw [Mark.run, List.forall_mem_map]
  intro u hu hkind
  have hends := (h.2 u hu).1
  simp [Token.endsLine, hkind] at hends

theorem Mark.last_of_coding {marks : List Mark} (h : List.Forall₂ Fits (ink marks) ts)
    (hmarks : ∀ mark ∈ marks, mark.Coding) : ∀ t ∈ ts.getLast?, t.kind ≠ .comment := by
  have hall : ∀ t ∈ ts, t.kind ≠ .comment := by
    have hink : ∀ mark ∈ ink marks, mark.Coding := fun mark hmark =>
      hmarks mark (mem_of_mem_filter hmark)
    generalize ink marks = ink at h hink
    induction h with
    | nil => simp
    | cons hfirst _ ih =>
      rw [forall_mem_cons] at hink ⊢
      exact ⟨hink.1.kind_ne_comment hfirst, ih hink.2⟩
  exact fun t ht => hall t (mem_of_mem_getLast? ht)

theorem Statement.Spelled.last (h : s.Spelled ts) (hproper : s.Proper) (hs : s.isComment = false) :
    ∀ t ∈ ts.getLast?, t.kind ≠ .comment := by
  obtain ⟨loose, hfits⟩ := h
  cases s with
  | comment text => cases hs
  | assignment name expression =>
    refine last_of_coding hfits ?_
    rw [marks, forall_mem_append]
    exact ⟨by simp [Mark.Coding], Mark.coding_of_captured hproper⟩
  | returns expression =>
    refine last_of_coding hfits ?_
    rw [marks, forall_mem_cons]
    rcases hproper with rfl | hrun
    · simp [Coding]
    · have hne : expression ≠ [] := by
        obtain ⟨t, rest, rfl, -⟩ := hrun.1
        exact cons_ne_nil t rest
      rw [if_neg hne, forall_mem_cons]
      exact ⟨trivial, trivial, Mark.coding_of_captured hrun⟩
  | pass | defaultMode | defineMode =>
    exact last_of_coding hfits (by simp [marks, Coding])
  | declaration | call | setMode =>
    exact last_of_symbol hfits .closeParen (by rw [marks, getLast?_concat]) (by decide)
  | repeatLoop count =>
    exact last_of_symbol hfits .colon (by rw [marks, getLast?_append]; rfl) (by decide)
  | structType | otherwise | choose | option => exact last_of_symbol hfits .colon rfl (by decide)
  | _ => exact last_of_symbol hfits .colon (by rw [marks, getLast?_concat]) (by decide)

namespace SourceLine.Says

variable {unit unit' : Option Nat} {reader : LineReader} {floor : Nat} {types : List String}
  {siblings comments : List Node} {location : Location} {l m : SourceLine}

section

variable (h : l.Says unit reader floor types siblings s location comments)
include h

theorem isComment_of_mem : ∀ n ∈ comments, n.isComment = true := by
  obtain ⟨ts, trailing, -, -, -, -, rfl⟩ := h.written
  have htrailing : ∀ n ∈ trailing.map Token.remark, n.isComment = true := by
    rw [List.forall_mem_map]
    exact fun t _ => rfl
  cases s with
  | comment text => exact forall_mem_nil _
  | _ => exact htrailing

theorem isComment_iff : s.isComment = true ↔ l.code = [] := by
  obtain ⟨ts, trailing, hink, htrailing, ⟨loose, hfits⟩, hplace, -⟩ := h.written
  rw [SourceLine.code, hink, filter_eq_nil_iff]
  constructor
  · intro hs
    cases s with
    | comment text =>
      obtain ⟨t, rest, ht, hrest, rfl⟩ := forall₂_cons_left_iff.mp hfits
      obtain rfl := forall₂_nil_left_iff.mp hrest
      rw [forall_mem_append, forall_mem_singleton]
      exact ⟨by simp [ht.1], fun u hu => by simp [htrailing u hu]⟩
    | _ => cases hs
  · intro hcode
    rw [← h.kind.2.1, SourceLine.isRemark, hink]
    cases ts with
    | nil => simp [Token.place?] at hplace
    | cons t ts => simpa using hcode t (by simp)

section

variable (hlast : (Token.ink l).Pairwise fun t _ => t.kind ≠ .comment)
include hlast

theorem spelled_code (hs : s.isComment = false) : s.Spelled l.code ∧ Token.place? l.code = some location := by
  obtain ⟨ts, trailing, hink, hcomments, hspelled, hplace, -⟩ := h.written
  have hplain : ∀ t ∈ ts, t.kind ≠ .comment := by
    rw [hink] at hlast
    have hlast := (pairwise_append.mp hlast).1
    have hend := hspelled.last h.proper hs
    rcases eq_nil_or_concat' ts with rfl | ⟨front, t, rfl⟩
    · simp
    · intro u hu
      rcases mem_append.mp hu with hu | hu
      · exact (pairwise_append.mp hlast).2.2 u hu t mem_cons_self
      · rw [mem_singleton.mp hu]
        exact hend t getLast?_concat
  have hcode : l.code = ts := by
    have hfront : (ts.filter fun t => t.kind != .comment) = ts :=
      filter_eq_self.mpr fun t ht => by simpa using hplain t ht
    have hback : (trailing.filter fun t => t.kind != .comment) = [] :=
      filter_eq_nil_iff.mpr fun t ht => by simp [hcomments t ht]
    rw [SourceLine.code, hink, filter_append, hfront, hback, append_nil]
  rw [hcode]
  exact ⟨hspelled, hplace⟩

theorem uncommented {bare : List Node} (hs : s.isComment = false)
    (hcode : List.Forall₂ Token.Alike l.code (Token.ink m)) (hdivides : unit'.getD 1 ∣ m.width)
    (hlevel : m.level unit' = l.level unit)
    (hsiblings : Node.AllUncommented siblings bare) :
    ∃ place, m.Says unit' reader floor types bare s place [] := by
  obtain ⟨hspelled, hplace⟩ := h.spelled_code hlast hs
  obtain ⟨place, hplace⟩ := Token.place?_of_alike hcode hplace
  refine ⟨place, hdivides, hlevel ▸ h.deep, ⟨Token.ink m, [], ?_, ?_, ?_, hplace, ?_⟩, h.proper, ?_⟩
  · rw [append_nil]
  · exact forall_mem_nil _
  · exact hspelled.of_alike hcode
  · cases s <;> rfl
  · rw [hlevel]
    exact h.allowed.of_branch hsiblings.branchMayFollow_eq

end

end

end SourceLine.Says

/-! ### Outlines -/

theorem Uncommented.split {a b : List SourceLine} (h : Uncommented (a ++ b) ms) :
    ∃ x y, ms = x ++ y ∧ Uncommented a x ∧ Uncommented b y := by
  induction a generalizing ms with
  | nil => exact ⟨[], ms, rfl, .nil, h⟩
  | cons l a ih =>
    cases h with
    | remark hcode hnext hrest =>
      obtain ⟨x, y, rfl, hx, hy⟩ := ih hrest
      refine ⟨x, y, rfl, .remark hcode (fun m hm => hnext m ?_) hx, hy⟩
      rw [head?_append, mem_def.mp hm, some_or]
      rfl
    | line hcode hink hwidth hrest =>
      obtain ⟨x, y, rfl, hx, hy⟩ := ih hrest
      exact ⟨_ :: x, y, rfl, .line hcode hink hwidth hx, hy⟩

theorem Uncommented.head_width {l : SourceLine} (h : Uncommented (l :: ls) ms) :
    ∀ m ∈ ms.head?, m.width = l.width := by
  cases h with
  | remark _ hnext _ => exact hnext
  | line _ _ hwidth _ =>
    intro m hm
    obtain rfl := Option.some.inj hm
    exact hwidth

section

variable (h : Uncommented ls ms)
include h

theorem Uncommented.unitWidth_eq : unitWidth ms = unitWidth ls ∨ ∀ m ∈ ms, m.width = 0 := by
  induction h with
  | nil => exact .inl rfl
  | @remark l ls ms hcode hnext hrest ih =>
    by_cases hzero : l.width = 0
    · rw [unitWidth_cons, unitWidth_singleton, if_pos hzero, none_or]
      exact ih
    · cases ms with
      | nil => exact .inr (forall_mem_nil _)
      | cons m ms =>
        -- the next line that stays is indented like the comment
        have hsame := hnext m rfl
        left
        rw [unitWidth_cons l, unitWidth_cons m, unitWidth_singleton, unitWidth_singleton, hsame,
          if_neg hzero, some_or, some_or]
  | @line l m ls ms hcode hink hwidth hrest ih =>
    by_cases hzero : l.width = 0
    · rw [unitWidth_cons l, unitWidth_cons m, unitWidth_singleton, unitWidth_singleton, hwidth,
        if_pos hzero, none_or, none_or, forall_mem_cons, hwidth]
      exact ih.imp_right fun hzeros => ⟨hzero, hzeros⟩
    · left
      rw [unitWidth_cons l, unitWidth_cons m, unitWidth_singleton, unitWidth_singleton, hwidth,
        if_neg hzero, some_or, some_or]

theorem Uncommented.width_mem : ∀ m ∈ ms, ∃ l ∈ ls, m.width = l.width := by
  induction h with
  | nil => simp
  | remark _ _ _ ih =>
    intro m hm
    obtain ⟨l, hl, hwidth⟩ := ih m hm
    exact ⟨l, mem_cons_of_mem _ hl, hwidth⟩
  | @line l m ls ms _ _ hwidth _ ih =>
    rw [forall_mem_cons]
    refine ⟨⟨l, mem_cons_self, hwidth⟩, fun m hm => ?_⟩
    obtain ⟨l, hl, hwidth⟩ := ih m hm
    exact ⟨l, mem_cons_of_mem _ hl, hwidth⟩

theorem Uncommented.levels (hdivides : ∀ l ∈ ls, (unitWidth ls).getD 1 ∣ l.width) :
    ∀ m ∈ ms, (unitWidth ms).getD 1 ∣ m.width ∧ m.level (unitWidth ms) = m.level (unitWidth ls) := by
  intro m hm
  rcases h.unitWidth_eq with hunit | hzero
  · obtain ⟨l, hl, hwidth⟩ := h.width_mem m hm
    rw [hunit, hwidth]
    exact ⟨hdivides l hl, rfl⟩
  · rw [SourceLine.level, SourceLine.level, hzero m hm, Nat.zero_div, Nat.zero_div]
    exact ⟨Nat.dvd_zero _, rfl⟩

end

/-- Lines without their comments outline the forest without its comments. The units of the two may
differ where no line that stays is indented. -/
theorem Outlined.uncommented {unit unit' : Option Nat} {reader : LineReader} {floor : Nat}
    {types after : List String} {done nodes : List Node} {lines : List SourceLine}
    (h : Outlined unit reader floor types done lines nodes after) :
    ∀ {bare : List Node} {ms : List SourceLine}, Node.AllUncommented done bare → Uncommented lines ms →
      (∀ l ∈ lines, (Token.ink l).Pairwise fun t _ => t.kind ≠ .comment) →
      (∀ m ∈ ms, unit'.getD 1 ∣ m.width ∧ m.level unit' = m.level unit) →
      ∃ new, Outlined unit' reader floor types bare ms new after ∧ Node.AllUncommented nodes new := by
  have hlevel : ∀ {l m : SourceLine}, m.width = l.width → m.level unit' = m.level unit →
      m.level unit' = l.level unit := by
    intro l m hwidth hsame
    rw [hsame, SourceLine.level, SourceLine.level, hwidth]
  induction h with
  | nil =>
    intro bare ms _ hlines _ _
    cases hlines
    exact ⟨[], .nil, .nil⟩
  | @leaf reader floor types after done nodes l ls s location comments hopens htold hrest ih =>
    intro bare ms hdone hlines hlast hfits
    obtain ⟨hlast, hlasts⟩ := forall_mem_cons.mp hlast
    have hcomments := Node.AllUncommented.of_comments htold.isComment_of_mem
    cases hlines with
    | remark hcode hnext hlines =>
      -- the comment is no node of the new forest
      have hnode : Node.AllUncommented (.mk s (some location) [] :: comments) [] := by
        refine .comment ?_ hcomments
        rw [Node.isComment_mk]
        exact htold.isComment_iff.mpr hcode
      have hdone' := hdone.append hnode
      rw [append_nil] at hdone'
      obtain ⟨new, houtlined, hnew⟩ := ih hdone' hlines hlasts hfits
      exact ⟨new, houtlined, hnode.append hnew⟩
    | @line _ m _ ms hcode hink hwidth hlines =>
      obtain ⟨⟨hdivides, hsame⟩, hfits⟩ := forall_mem_cons.mp hfits
      have hs : s.isComment = false := by
        rw [Bool.eq_false_iff, ne_eq, htold.isComment_iff]
        intro hnone
        rw [hnone, forall₂_nil_left_iff] at hcode
        exact hink hcode
      obtain ⟨place, hplaced⟩ := htold.uncommented hlast hs hcode hdivides (hlevel hwidth hsame) hdone
      have hnode : Node.AllUncommented (.mk s (some location) [] :: comments)
          [.mk s (some place) []] := .cons hs (fun _ => forall_mem_nil _) .nil hcomments
      obtain ⟨new, houtlined, hnew⟩ := ih (hdone.append hnode) hlines hlasts hfits
      exact ⟨.mk s (some place) [] :: [] ++ new, .leaf hopens hplaced houtlined, hnode.append hnew⟩
  | @header reader floor types between after done block nodes l inner ls s location comments hopens
      htold hblock hfilled hnext hrest ihblock ihrest =>
      intro bare ms hdone hlines hlast hfits
      obtain ⟨hlast, hlasts⟩ := forall_mem_cons.mp hlast
      obtain ⟨hlastInner, hlastRest⟩ := forall_mem_append.mp hlasts
      have hs := isComment_of_opensBlock hopens
      have hcomments := Node.AllUncommented.of_comments htold.isComment_of_mem
      cases hlines with
      | remark hcode _ _ => exact Bool.noConfusion (hs.symm.trans (htold.isComment_iff.mpr hcode))
      | @line _ m _ ms hcode hink hwidth hlines =>
        obtain ⟨⟨hdivides, hsame⟩, hfits⟩ := forall_mem_cons.mp hfits
        obtain ⟨deeper, others, rfl, hdeeper, hothers⟩ := hlines.split
        obtain ⟨hfitsInner, hfitsRest⟩ := forall_mem_append.mp hfits
        have hsameLevel := hlevel hwidth hsame
        obtain ⟨place, hplaced⟩ := htold.uncommented hlast hs hcode hdivides hsameLevel hdone
        obtain ⟨inside, houtlinedInside, hinside⟩ := ihblock hcomments hdeeper hlastInner hfitsInner
        have hbodies : Node.AllUncommented (comments ++ block) inside := hcomments.append hinside
        have hnode : Node.AllUncommented [.mk s (some location) (s.members (comments ++ block))]
            [.mk s (some place) (s.members ([] ++ inside))] :=
          .cons hs (isComment_of_mem_members _) (hbodies.members s) .nil
        obtain ⟨new, houtlined, hnew⟩ := ihrest (hdone.append hnode) hothers hlastRest hfitsRest
        rw [← hsameLevel] at houtlinedInside
        refine ⟨_, .header hopens hplaced houtlinedInside (hbodies.filled hfilled) ?_ houtlined, hnode.append hnew⟩
        -- the first line that stays after the block is as shallow as the first line there
        intro next hhead
        cases ls with
        | nil =>
          cases hothers
          simp at hhead
        | cons x ls =>
          have hshallow := hnext x rfl
          have hfound := (hfitsRest next (mem_of_mem_head? hhead)).2
          rw [hlevel (hothers.head_width next hhead) hfound, hsameLevel]
          exact hshallow

end CirOutline
