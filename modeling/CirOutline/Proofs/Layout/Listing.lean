import CirOutline.Proofs.Layout.Offside

/-!
The listing of a program. Read from top to bottom, the forest of a program says what its lines say,
line after line, with the trailing comments in their places. `sourceListing` computes that listing
from the lines alone, in one pass that keeps the headers whose blocks are open; nothing is left out
but the comments that a named type drops.
-/

namespace CirOutline

open List Node Token

variable {floor : Nat} {l : SourceLine} {reader : LineReader} {s : Statement} {types : List String}

/-- An entry of a listing: a statement, its place and the number of blocks around it. -/
structure ListedNode where
  depth : Nat
  statement : Statement
  location : Option Location

namespace Node

mutual
/-- The entries of a tree: its own statement, then those of its block. -/
def entries (depth : Nat) : Node → List ListedNode
  | mk s location body => ⟨depth, s, location⟩ :: listing (depth + 1) body

def listing (depth : Nat) : List Node → List ListedNode
  | [] => []
  | n :: ns => n.entries depth ++ listing depth ns
end

theorem forest_induction {P : List Node → Prop} (nil : P [])
    (cons : ∀ s location body ns, P body → P ns → P (.mk s location body :: ns)) (ns : List Node) :
    P ns :=
  @rec_1 (fun n => P n.body) P (fun _ _ _ hbody => hbody) nil
    (fun n ns hbody hns => by
      obtain ⟨s, location, body⟩ := n
      exact cons s location body ns hbody hns) ns

theorem listing_append (depth : Nat) (a b : List Node) :
    listing depth (a ++ b) = listing depth a ++ listing depth b := by
  induction a with
  | nil => rfl
  | cons n a ih => rw [cons_append, listing, listing, ih, append_assoc]

end Node

structure Saying where
  line : SourceLine
  statement : Statement
  trailing : List Token

structure OpenBlock where
  level : Nat
  isType : Bool

/-- A mark and a token that shows it: a symbol has one of the texts of its class. -/
def Mark.Shows (mark : Mark) (t : Token) : Prop :=
  mark.Fits t ∧ (t.kind.symbols ≠ [] → t.raw ∈ t.kind.symbols)

/-- The ink that shows a statement, token by token, white space left out. -/
def Statement.Shown (s : Statement) (ts : List Token) : Prop :=
  ∃ loose, List.Forall₂ Mark.Shows (Mark.ink (s.marks loose)) ts

namespace Saying

def Shown (x : Saying) : Prop :=
  (∃ ts, ink x.line = ts ++ x.trailing ∧ x.statement.Shown ts) ∧
    ∀ t ∈ x.trailing, t.kind = .comment

def remarks (depth : Nat) (x : Saying) : List ListedNode :=
  x.trailing.map fun t => ⟨depth, .comment t.raw, some t.location⟩

/-- The entries of a line within open blocks, the innermost first: the statement, and the comments
as the start of its block or after it. A named type drops the comments directly in its block, those
after its header and those after a member that needs no block. -/
def entries (blocks : List OpenBlock) (x : Saying) : List ListedNode :=
  let inType := blocks.head?.any OpenBlock.isType
  (if inType && x.statement.isComment then [] else [⟨blocks.length, x.statement, x.line.place?⟩]) ++
    if x.statement.opensBlock then
      if x.statement.isType then [] else x.remarks (blocks.length + 1)
    else if inType then [] else x.remarks blocks.length

def after (unit : Option Nat) (blocks : List OpenBlock) (x : Saying) : List OpenBlock :=
  if x.statement.opensBlock then ⟨x.line.level unit, x.statement.isType⟩ :: blocks else blocks

def around (unit : Option Nat) (blocks : List OpenBlock) (x : Saying) : List OpenBlock :=
  blocks.dropWhile fun b => x.line.level unit ≤ b.level

end Saying

/-- The listing that lines have by themselves, when blocks are open already. -/
def sourceListing (unit : Option Nat) : List OpenBlock → List Saying → List ListedNode
  | _, [] => []
  | blocks, x :: rest =>
    x.entries (x.around unit blocks) ++ sourceListing unit (x.after unit (x.around unit blocks)) rest

def openBlocks (unit : Option Nat) (blocks : List OpenBlock) (said : List Saying) : List OpenBlock :=
  said.foldl (fun blocks x => x.after unit (x.around unit blocks)) blocks

theorem sourceListing_append (unit : Option Nat) (blocks : List OpenBlock) (a b : List Saying) :
    sourceListing unit blocks (a ++ b) =
      sourceListing unit blocks a ++ sourceListing unit (openBlocks unit blocks a) b := by
  induction a generalizing blocks with
  | nil => rfl
  | cons x a ih =>
    rw [cons_append, sourceListing, ih, sourceListing, append_assoc]
    rfl

/-! ### Blocks that are past -/

variable {unit : Option Nat}

theorem Saying.around_append {x : Saying} {past blocks : List OpenBlock}
    (hover : ∀ b ∈ past, x.line.level unit ≤ b.level)
    (hopen : ∀ b ∈ blocks, b.level < x.line.level unit) : x.around unit (past ++ blocks) = blocks := by
  rw [Saying.around, dropWhile_append_of_pos fun b hb => by simpa using hover b hb]
  cases blocks with
  | nil => rfl
  | cons b blocks =>
    rw [dropWhile_cons_of_neg]
    have hlt := hopen b mem_cons_self
    simpa using hlt

theorem openBlocks_below (b : OpenBlock) (blocks : List OpenBlock) (said : List Saying)
    (hdeep : ∀ x ∈ said, b.level < x.line.level unit) (past : List OpenBlock)
    (hover : ∀ o ∈ past, b.level < o.level) :
    ∃ more, openBlocks unit (past ++ b :: blocks) said = more ++ b :: blocks ∧
      ∀ o ∈ more, b.level < o.level := by
  induction said generalizing past with
  | nil => exact ⟨past, rfl, hover⟩
  | cons x said ih =>
    have hx := hdeep x mem_cons_self
    have haround : x.around unit (past ++ b :: blocks) =
        past.dropWhile (fun o => x.line.level unit ≤ o.level) ++ b :: blocks := by
      rw [Saying.around, dropWhile_append]
      split_ifs with hempty
      · rw [List.isEmpty_iff.mp hempty, dropWhile_cons_of_neg (by simpa using hx)]
        rfl
      · rfl
    have hsuffix : ∀ o ∈ past.dropWhile (fun o => x.line.level unit ≤ o.level), b.level < o.level :=
      fun o ho => hover o ((dropWhile_suffix _).subset ho)
    have hrest := ih fun y hy => hdeep y (mem_cons_of_mem _ hy)
    rw [openBlocks, foldl_cons, haround, Saying.after]
    split_ifs with hopens
    · refine hrest (⟨x.line.level unit, x.statement.isType⟩ :: _) fun o ho => ?_
      rcases mem_cons.mp ho with rfl | ho
      · exact hx
      · exact hsuffix o ho
    · exact hrest _ hsuffix

/-! ### Lines of a text -/

/-- The tokens of a line of a text: symbols have their texts, and a comment is the last token. -/
structure SourceLine.Plain (l : SourceLine) : Prop where
  symbols : ∀ t ∈ l, t.kind.symbols ≠ [] → t.raw ∈ t.kind.symbols
  breaks : ∀ t ∈ l, t.kind ≠ .lineBreak
  comments : l.IsChain fun a b => a.kind = .comment → b.kind = .lineBreak

theorem Tokenized.plain {l : Location} {cs rest : List Char} {tokens : List Token}
    {line : SourceLine} (h : Tokenized l cs tokens rest) (hline : line ∈ sourceLines tokens) :
    line.Plain := by
  obtain ⟨hpiece, hbreaks, -⟩ := of_mem_sourceLines hline
  refine ⟨fun t ht => h.symbol_raw t (hpiece.subset ht), hbreaks, ?_⟩
  have hchain := List.IsChain.infix h.neighbours hpiece
  exact hchain.imp fun _ _ hab => hab.2.1

theorem SourceLine.Plain.ink_remark (h : l.Plain) {t : Token} {rest : List Token}
    (hink : ink l = t :: rest) (hkind : t.kind = .comment) : rest = [] := by
  induction l with
  | nil => simp at hink
  | cons x l ih =>
    by_cases hspaces : x.kind = .spaces
    · rw [ink_cons_of_spaces hspaces] at hink
      exact ih ⟨fun t ht => h.symbols t (mem_cons_of_mem _ ht),
        fun t ht => h.breaks t (mem_cons_of_mem _ ht), h.comments.tail⟩ hink
    · rw [ink_cons hspaces] at hink
      obtain ⟨rfl, rfl⟩ := List.cons.inj hink
      cases l with
      | nil => rfl
      | cons y l => exact absurd (h.comments.rel hkind) (h.breaks y (by simp))

theorem Statement.Spelled.shown {ts : List Token} (h : s.Spelled ts)
    (hsymbols : ∀ t ∈ ts, t.kind.symbols ≠ [] → t.raw ∈ t.kind.symbols) : s.Shown ts := by
  obtain ⟨loose, hfits⟩ := h
  refine ⟨loose, ?_⟩
  generalize Mark.ink (s.marks loose) = marks at hfits
  induction hfits with
  | nil => exact .nil
  | cons hfit _ ih =>
    exact .cons ⟨hfit, hsymbols _ mem_cons_self⟩ (ih fun t ht => hsymbols t (mem_cons_of_mem _ ht))

theorem SourceLine.Says.saying {siblings comments : List Node} {location : Location}
    (h : l.Says unit reader floor types siblings s location comments) (hplain : l.Plain) :
    ∃ trailing, (Saying.mk l s trailing).Shown ∧ comments = trailing.map remark := by
  obtain ⟨ts, trailing, hink, hremarks, hspelled, -, rfl⟩ := h.written
  have hsymbols : ∀ t ∈ ts, t.kind.symbols ≠ [] → t.raw ∈ t.kind.symbols := by
    intro t ht
    have hmem : t ∈ ink l := by rw [hink]; exact mem_append_left _ ht
    exact hplain.symbols t (mem_filter.mp hmem).1
  refine ⟨trailing, ⟨⟨ts, hink, hspelled.shown hsymbols⟩, hremarks⟩, ?_⟩
  cases s with
  | comment text =>
    obtain ⟨loose, hfits⟩ := hspelled
    obtain ⟨t, rest, hfirst, -, rfl⟩ := forall₂_cons_left_iff.mp hfits
    have hnone := hplain.ink_remark hink hfirst.1
    rw [(append_eq_nil_iff.mp hnone).2]
    rfl
  | _ => rfl

/-! ### The listing of a block -/

/-- The trees that stay in a block: a named type keeps no comments. -/
def keptTrees (inType : Bool) (nodes : List Node) : List Node :=
  if inType then nodes.filter fun n => !n.isComment else nodes

theorem keptTrees_append (inType : Bool) (a b : List Node) :
    keptTrees inType (a ++ b) = keptTrees inType a ++ keptTrees inType b := by
  cases inType with
  | false => rfl
  | true => exact filter_append a b

theorem Statement.members_eq (s : Statement) (nodes : List Node) : s.members nodes = keptTrees s.isType nodes := by
  cases s <;> rfl

theorem listing_remarks (depth : Nat) (inType : Bool) (x : Saying) :
    listing depth (keptTrees inType (x.trailing.map remark)) =
      if inType then [] else x.remarks depth := by
  cases inType with
  | true =>
    have hnone : keptTrees true (x.trailing.map remark) = [] := by
      simp [keptTrees, remark, isComment, statement]
    rw [hnone]
    rfl
  | false =>
    simp only [keptTrees, Saying.remarks, Bool.false_eq_true, if_false]
    induction x.trailing with
    | nil => rfl
    | cons t trailing ih =>
      rw [map_cons, map_cons, Node.listing, ih]
      rfl

theorem listing_statement (depth : Nat) (inType : Bool) (s : Statement) (location : Option Location)
    (body : List Node) :
    listing depth (keptTrees inType [.mk s location body]) =
      if inType && s.isComment then [] else ⟨depth, s, location⟩ :: listing (depth + 1) body := by
  cases inType with
  | false =>
    simp only [keptTrees, Bool.false_and, Bool.false_eq_true, if_false, Node.listing, Node.entries, append_nil]
  | true =>
    cases hcomment : s.isComment <;>
      simp [keptTrees, Node.isComment_mk, hcomment, Node.listing, Node.entries]

/-- The lines of a block list its forest, within the blocks that are open around it. Blocks in front
of those are over by the first line. -/
theorem Outlined.listed {after : List String} {done nodes : List Node} {lines : List SourceLine}
    (h : Outlined unit reader floor types done lines nodes after) (hplain : ∀ l ∈ lines, l.Plain)
    (past blocks : List OpenBlock) (hover : ∀ b ∈ past, ∀ l ∈ lines.head?, l.level unit ≤ b.level)
    (hopen : ∀ b ∈ blocks, b.level < floor) :
    ∃ said : List Saying, said.map Saying.line = lines ∧ (∀ x ∈ said, x.Shown) ∧
      sourceListing unit (past ++ blocks) said =
        listing blocks.length (keptTrees (blocks.head?.any OpenBlock.isType) nodes) := by
  induction h generalizing past blocks with
  | nil =>
    refine ⟨[], rfl, by simp, ?_⟩
    cases blocks.head?.any OpenBlock.isType <;> rfl
  | @leaf reader floor types after done nodes l ls s location comments hopens htold hrest ih =>
    obtain ⟨trailing, hshown, rfl⟩ := htold.saying (hplain l mem_cons_self)
    obtain ⟨said, hlines, hsaid, hlisting⟩ :=
      ih (fun x hx => hplain x (mem_cons_of_mem _ hx)) [] blocks (by simp) hopen
    have haround : (Saying.mk l s trailing).around unit (past ++ blocks) = blocks :=
      Saying.around_append (fun b hb => hover b hb l rfl) fun b hb =>
        Nat.lt_of_lt_of_le (hopen b hb) htold.deep
    refine ⟨⟨l, s, trailing⟩ :: said, by rw [map_cons, hlines], forall_mem_cons.mpr ⟨hshown, hsaid⟩, ?_⟩
    have hafter : (Saying.mk l s trailing).after unit blocks = blocks := by
      rw [Saying.after, if_neg (by simp [hopens])]
    have hsplit : mk s (some location) [] :: trailing.map remark ++ nodes =
        [mk s (some location) []] ++ (trailing.map remark ++ nodes) := rfl
    rw [sourceListing, haround, hafter, hsplit, keptTrees_append, keptTrees_append, listing_append,
      listing_append, ← hlisting, listing_statement, listing_remarks _ _ ⟨l, s, trailing⟩,
      Saying.entries, ← htold.kind.2.2.2, ← append_assoc]
    simp only [hopens, Bool.false_eq_true, if_false, nil_append, Node.listing]
  | @header reader floor types between after done block nodes l inner ls s location comments hopens
      htold hblock hfilled hnext hrest ihblock ih =>
      obtain ⟨trailing, hshown, rfl⟩ := htold.saying (hplain l mem_cons_self)
      have hdeep : ∀ x ∈ inner, l.level unit < x.level unit := fun x hx => (hblock.indented x hx).2
      have hopenAll : ∀ b ∈ blocks, b.level < l.level unit := fun b hb =>
        Nat.lt_of_lt_of_le (hopen b hb) htold.deep
      have haround : (Saying.mk l s trailing).around unit (past ++ blocks) = blocks :=
        Saying.around_append (fun b hb => hover b hb l rfl) hopenAll
      have hafter : (Saying.mk l s trailing).after unit blocks = ⟨l.level unit, s.isType⟩ :: blocks := by
        rw [Saying.after, if_pos hopens]
      -- the block of the header, with the header as the innermost open block
      obtain ⟨said1, hlines1, hsaid1, hlisting1⟩ :=
        ihblock (fun x hx => hplain x (by simp [hx])) [] (⟨l.level unit, s.isType⟩ :: blocks) (by simp)
          (forall_mem_cons.mpr ⟨Nat.lt_succ_self _, fun b hb => Nat.lt_succ_of_lt (hopenAll b hb)⟩)
      -- the lines after it, by which the header and everything in its block is past
      obtain ⟨more, hmore, hmoreDeep⟩ := openBlocks_below ⟨l.level unit, s.isType⟩ blocks said1
        (fun x hx => hdeep x.line (hlines1 ▸ mem_map_of_mem hx)) [] (by simp)
      have hoverNext : ∀ b ∈ more ++ [⟨l.level unit, s.isType⟩], ∀ y ∈ ls.head?,
          y.level unit ≤ b.level := by
        intro b hb y hy
        have hflat := hnext y hy
        rcases mem_append.mp hb with hb | hb
        · exact hflat.trans (Nat.le_of_lt (hmoreDeep b hb))
        · rw [mem_singleton.mp hb]
          exact hflat
      have hcommentHead : s.isComment = false := Statement.isComment_of_opensBlock hopens
      obtain ⟨said2, hlines2, hsaid2, hlisting2⟩ :=
        ih (fun x hx => hplain x (by simp [hx])) (more ++ [⟨l.level unit, s.isType⟩]) blocks hoverNext
          hopen
      refine ⟨⟨l, s, trailing⟩ :: (said1 ++ said2), ?_, ?_, ?_⟩
      · rw [map_cons, map_append, hlines1, hlines2]
      · intro x hx
        rcases mem_cons.mp hx with rfl | hx
        · exact hshown
        · exact (mem_append.mp hx).elim (hsaid1 x) (hsaid2 x)
      · rw [append_assoc, singleton_append] at hlisting2
        rw [nil_append] at hlisting1 hmore
        have hsplit : mk s (some location) (s.members (trailing.map remark ++ block)) :: nodes =
            [mk s (some location) (s.members (trailing.map remark ++ block))] ++ nodes := rfl
        rw [sourceListing, haround, hafter, sourceListing_append, hmore, hlisting2, hlisting1, hsplit,
          keptTrees_append, listing_append, listing_statement, Statement.members_eq,
          keptTrees_append, listing_append, listing_remarks _ _ ⟨l, s, trailing⟩, Saying.entries,
          ← htold.kind.2.2.2]
        simp only [hcommentHead, hopens, Bool.and_false, Bool.false_eq_true, if_false, if_true,
          head?_cons, Option.any_some, length_cons, cons_append, append_assoc,
          nil_append]

/-- Nothing is lost, moved or made up. For a text that is split and read, the lines are those of the
text and all tokens are taken; and the forest, read from top to bottom, is the listing of its lines:
each line gives one statement at its place, whose writing is exactly the ink of the line up to the
comments after it, and these follow as nodes. -/
theorem program_listing {source file : String} {quoted : List String} {tokens : List Token}
    {program : Program} (htokens : tokenize source file = .ok tokens)
    (hprogram : readProgram tokens file quoted = .ok program) :
    (sourceLines tokens).map Token.chars = textLines source.toList ∧
    (∃ c, readBlock .statements 0 [] ((Cursor.start tokens file quoted).enter 0) = .ok (program.nodes, c) ∧
      c.rest = []) ∧
    ∃ said : List Saying, said.map Saying.line = sourceLines tokens ∧ (∀ x ∈ said, x.Shown) ∧
      Node.listing 0 program.nodes = sourceListing program.unit [] said := by
  have htokenized := tokenize_tokenized htokens
  obtain ⟨-, ⟨after, houtlined⟩, hconsumed⟩ := readProgram_outlined htokenized.scanned hprogram
  obtain ⟨said, hlines, hshown, hlisting⟩ :=
    houtlined.listed (fun l hl => htokenized.plain hl) [] [] (by simp) (by simp)
  exact ⟨tokenize_textLines htokens, hconsumed, said, hlines, hshown, hlisting.symm⟩

/-- A header with a comment, a block in its block, and a line after both. -/
theorem program_listing_of_blocks : ∃ tokens program,
    tokenize "METHOD m: // a\n  IF x:\n    PASS\nPASS" "f" = .ok tokens ∧ readProgram tokens "f" [] = .ok program ∧
      (Node.listing 0 program.nodes).map ListedNode.depth = [0, 1, 1, 2, 0] ∧
      ∃ said : List Saying, said.map Saying.line = sourceLines tokens ∧ (∀ x ∈ said, x.Shown) ∧
        Node.listing 0 program.nodes = sourceListing program.unit [] said := by
  obtain ⟨tokens, program, htokens, hprogram, hdepths⟩ := exists_read
    "METHOD m: // a\n  IF x:\n    PASS\nPASS" "f"
    (fun _ program => (Node.listing 0 program.nodes).map ListedNode.depth = [0, 1, 1, 2, 0]) (by decide +kernel)
  obtain ⟨-, -, hsaid⟩ := program_listing htokens hprogram
  exact ⟨tokens, program, htokens, hprogram, hdepths, hsaid⟩

end CirOutline
