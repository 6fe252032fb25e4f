import CirOutline.Scope
import Mathlib.Data.List.Nodup

/-!
Names suggested for a mistyped one. The rows of the table of distances hold, for each beginning of the
shorter text, the least number of edits from what was read of the longer one; what is suggested are the
first names in sight that few edits lead to.
-/

namespace CirOutline

open List

namespace EditDistance

/-- One character is inserted, deleted or substituted. -/
inductive Edit : List Char → List Char → Prop
  | insertion (front : List Char) (c : Char) (back : List Char) : Edit (front ++ back) (front ++ c :: back)
  | deletion (front : List Char) (c : Char) (back : List Char) : Edit (front ++ c :: back) (front ++ back)
  | substitution (front : List Char) (c d : Char) (back : List Char) :
      Edit (front ++ c :: back) (front ++ d :: back)

/-- So many edits, one after the other, turn a text into another. -/
inductive Edits : Nat → List Char → List Char → Prop
  | none (s : List Char) : Edits 0 s s
  | more {n : Nat} {s u t : List Char} : Edit s u → Edits n u t → Edits (n + 1) s t

/-- The cost of aligning two texts from their first characters on. -/
def cost : List Char → List Char → Nat
  | [], t => t.length
  | s, [] => s.length
  | c :: s, d :: t =>
    min (1 + cost s (d :: t)) (min (1 + cost (c :: s) t) ((if c = d then 0 else 1) + cost s t))
termination_by s t => s.length + t.length

variable {n : Nat} {c d : Char} {s t u : List Char}

/-! ### Costs and edits -/

theorem cost_nil (s : List Char) : cost s [] = s.length := by
  cases s <;> simp [cost]

theorem cost_comm (s t : List Char) : cost s t = cost t s := by
  fun_induction cost s t with
  | case1 t => rw [cost_nil]
  | case2 s => rw [cost]
  | case3 c s d t ih1 ih2 ih3 =>
    have hsame : (if c = d then 0 else 1) = if d = c then 0 else 1 := by simp [eq_comm]
    rw [cost, ih1, ih2, ih3, hsame]
    omega

theorem cost_cons_le (c : Char) (s t : List Char) : cost (c :: s) t ≤ cost s t + 1 := by
  cases t with
  | nil => simp [cost_nil]
  | cons d t =>
    rw [cost]
    omega

theorem le_cost_cons (c : Char) (s t : List Char) : cost s t ≤ cost (c :: s) t + 1 := by
  induction t with
  | nil =>
    rw [cost_nil, cost_nil, length_cons]
    omega
  | cons d t ih =>
    have hinserted : cost s (d :: t) ≤ cost s t + 1 := by
      rw [cost_comm s, cost_comm s]
      exact cost_cons_le d t s
    rw [cost]
    omega

theorem cost_substitution_le (c d : Char) (s t : List Char) : cost (c :: s) t ≤ cost (d :: s) t + 1 := by
  induction t with
  | nil => simp [cost_nil]
  | cons b t ih =>
    rw [cost, cost]
    split_ifs <;> omega

/-- What costs at most one more at the front does so behind any text. -/
theorem cost_behind (h : ∀ t, cost s t ≤ cost u t + 1) (front t : List Char) :
    cost (front ++ s) t ≤ cost (front ++ u) t + 1 := by
  induction front generalizing t with
  | nil => exact h t
  | cons c front ih =>
    induction t with
    | nil => simpa [cost_nil] using ih []
    | cons d t iht =>
      have hboth := ih t
      have hdeleted := ih (d :: t)
      rw [cons_append, cons_append] at iht ⊢
      rw [cost, cost]
      omega

theorem Edit.cost_le (h : Edit s u) (t : List Char) : cost s t ≤ cost u t + 1 := by
  cases h with
  | insertion front c back => exact cost_behind (le_cost_cons c back) front t
  | deletion front c back => exact cost_behind (cost_cons_le c back) front t
  | substitution front c d back => exact cost_behind (cost_substitution_le c d back) front t

theorem cost_self (s : List Char) : cost s s = 0 := by
  induction s with
  | nil => rw [cost]; rfl
  | cons c s ih => simp [cost, ih]

theorem Edits.cost_le (h : Edits n s t) : cost s t ≤ n := by
  induction h with
  | none s => exact Nat.le_of_eq (cost_self s)
  | more hedit _ ih => exact Nat.le_trans (hedit.cost_le _) (Nat.succ_le_succ ih)

theorem Edits.cons (h : Edits n s t) (c : Char) : Edits n (c :: s) (c :: t) := by
  induction h with
  | none s => exact .none _
  | more hedit _ ih =>
    refine .more ?_ ih
    cases hedit with
    | insertion front d back => exact .insertion (c :: front) d back
    | deletion front d back => exact .deletion (c :: front) d back
    | substitution front d e back => exact .substitution (c :: front) d e back

theorem edits_cost (s t : List Char) : Edits (cost s t) s t := by
  fun_induction cost s t with
  | case1 t =>
    induction t with
    | nil => exact .none []
    | cons d t ih => exact .more (.insertion [] d []) (ih.cons d)
  | case2 s hne =>
    clear hne
    induction s with
    | nil => exact .none []
    | cons c s ih => exact .more (.deletion [] c s) ih
  | case3 c s d t hdelete hinsert hboth =>
    -- the least of the three is one of them
    have hcases : ∀ a b e : Nat, min a (min b e) = a ∨ min a (min b e) = b ∨ min a (min b e) = e := by omega
    rcases hcases (1 + cost s (d :: t)) (1 + cost (c :: s) t) ((if c = d then 0 else 1) + cost s t)
      with h | h | h <;> rw [h]
    · rw [Nat.add_comm]
      exact .more (.deletion [] c s) hdelete
    · rw [Nat.add_comm]
      exact .more (.insertion [] d (c :: s)) (hinsert.cons d)
    · split_ifs with hsame
      · rw [Nat.zero_add, hsame]
        exact hboth.cons d
      · rw [Nat.add_comm]
        exact .more (.substitution [] c d s) (hboth.cons d)

theorem Edits.reverse (h : Edits n s t) : Edits n s.reverse t.reverse := by
  induction h with
  | none s => exact .none _
  | more hedit _ ih =>
    refine .more ?_ ih
    cases hedit with
    | insertion front c back => simpa using Edit.insertion back.reverse c front.reverse
    | deletion front c back => simpa using Edit.deletion back.reverse c front.reverse
    | substitution front c d back => simpa using Edit.substitution back.reverse c d front.reverse

/-! ### Rows -/

theorem cost_cons_cons (c d : Char) (s t : List Char) : cost (c :: s) (d :: t) =
    if c == d then cost s t else 1 + min (cost s t) (min (cost s (d :: t)) (cost (c :: s) t)) := by
  have hdelete := le_cost_cons d t s
  have hinsert := le_cost_cons c s t
  rw [cost_comm (d :: t), cost_comm t] at hdelete
  rw [cost]
  by_cases h : c = d
  · rw [if_pos h, if_pos (beq_iff_eq.mpr h)]
    omega
  · rw [if_neg h, if_neg (by simpa using h)]
    omega

/-- The costs between a text and longer and longer texts; both are read from their ends. -/
def row (s : List Char) : (t column : List Char) → List Nat
  | t, [] => [cost s t]
  | t, d :: column => cost s t :: row s (d :: t) column

theorem row_eq_cons (s t column : List Char) : ∃ others, row s t column = cost s t :: others := by
  cases column <;> exact ⟨_, rfl⟩

theorem extendRow_row (c : Char) (s t column : List Char) :
    cost (c :: s) t :: extendRow c column (row s t column) (cost (c :: s) t) = row (c :: s) t column := by
  induction column generalizing t with
  | nil => rfl
  | cons d column ih =>
    obtain ⟨others, hrow⟩ := row_eq_cons s (d :: t) column
    have ih := ih (d :: t)
    rw [row, row, ← ih, hrow, extendRow, ← cost_cons_cons]

theorem lastRow_row (other s rest : List Char) :
    lastRow other s.length (row s [] other) rest = row (rest.reverse ++ s) [] other := by
  induction rest generalizing s with
  | nil => rfl
  | cons c rest ih =>
    have hnext : nextRow other s.length (row s [] other) c = row (c :: s) [] other := by
      rw [← extendRow_row, nextRow, cost_nil, length_cons]
    rw [lastRow, hnext, reverse_cons, append_assoc, singleton_append]
    exact ih (c :: s)

theorem range_eq_row (t column : List Char) :
    (range (column.length + 1)).map (t.length + ·) = row [] t column := by
  induction column generalizing t with
  | nil => simp [row, cost]
  | cons d column ih =>
    rw [row, ← ih, length_cons, range_succ_eq_map, map_cons, map_map, cost]
    simp [Function.comp_def, Nat.add_assoc, Nat.add_comm 1]

theorem getLastD_row (s t column : List Char) : (row s t column).getLastD 0 = cost s (column.reverse ++ t) := by
  induction column generalizing t with
  | nil => rfl
  | cons d column ih =>
    obtain ⟨others, hrow⟩ := row_eq_cons s (d :: t) column
    rw [reverse_cons, append_assoc, singleton_append, ← ih, row, hrow]
    simp

theorem byRows_eq (s t : List Char) : byRows s t = cost s.reverse t.reverse := by
  have hfirst : range (t.length + 1) = row [] [] t := by simpa using range_eq_row [] t
  have hlast : lastRow t 0 (row [] [] t) s = row (s.reverse ++ []) [] t := lastRow_row t [] s
  rw [byRows, hfirst, hlast, getLastD_row, append_nil, append_nil]

theorem distance_eq (s t : List Char) : distance s t = cost s.reverse t.reverse := by
  unfold distance
  split_ifs
  · rw [byRows_eq, cost_comm]
  · exact byRows_eq s t

theorem distance_least (s t : List Char) : Edits (distance s t) s t ∧ ∀ n, Edits n s t → distance s t ≤ n := by
  rw [distance_eq]
  refine ⟨?_, fun n h => h.reverse.cost_le⟩
  simpa using (edits_cost s.reverse t.reverse).reverse

end EditDistance

/-! ### Names in sight -/

namespace Scope

open EditDistance

/-- What can happen to the variables in sight. -/
inductive Action where
  | declare (name : String) (type : CType) (isMutable : Bool)
  | enterMethod
  | exitMethod
  | forget (name : String)

def act (s : Scope) : Action → Scope
  | .declare name type isMutable => s.declare ⟨some name, type, isMutable⟩
  | .enterMethod => s.enterMethod
  | .exitMethod => s.exitMethod
  | .forget name => s.forget (some name)

def after (actions : List Action) : Scope := actions.foldl act empty

def Named (s : Scope) : Prop :=
  (∀ b ∈ s.globals, b.name.isSome = true) ∧ ∀ b ∈ s.locals.getD [], b.name.isSome = true

/-- Variables with names of which no two in one scope are equal. -/
structure Keyed (s : Scope) : Prop where
  named : s.Named
  globals : (s.globals.map Binding.name).Nodup
  locals : ((s.locals.getD []).map Binding.name).Nodup

/-- A name that may be meant where `name` stands. -/
def Resembles (name known : String) : Prop :=
  Text.lower known = Text.lower name ∨
    (known.length ≤ name.length + 1 ∧ name.length ≤ known.length + 1) ∧
      ∃ n ≤ 2, Edits n (Text.lower name).toList (Text.lower known).toList

variable {scope : Scope} {b : Binding} {bindings : List Binding}

theorem resembles_iff (name known : String) : resembles name known = true ↔ Resembles name known := by
  obtain ⟨hreached, hleast⟩ := distance_least (Text.lower name).toList (Text.lower known).toList
  have hnear : distance (Text.lower name).toList (Text.lower known).toList ≤ 2 ↔
      ∃ n ≤ 2, Edits n (Text.lower name).toList (Text.lower known).toList :=
    ⟨fun h => ⟨_, h, hreached⟩, fun ⟨n, hn, h⟩ => Nat.le_trans (hleast n h) hn⟩
  simp only [resembles, Resembles, Bool.or_eq_true, Bool.and_eq_true, beq_iff_eq, decide_eq_true_eq, hnear]

instance (name known : String) : Decidable (Resembles name known) :=
  decidable_of_iff _ (resembles_iff name known)

/-- A new name comes last, and a known one keeps its place. -/
theorem map_name_put (b : Binding) (bindings : List Binding) : (b.put bindings).map Binding.name =
    if b.name ∈ bindings.map Binding.name then bindings.map Binding.name
    else bindings.map Binding.name ++ [b.name] := by
  induction bindings with
  | nil => rfl
  | cons first rest ih =>
    rw [Binding.put]
    by_cases h : first.name = b.name
    · simp [h]
    · simp only [beq_iff_eq, h, if_false, map_cons, ih, mem_cons, Ne.symm h, false_or]
      split_ifs <;> rfl

theorem named_put (hb : b.name.isSome = true) (h : ∀ other ∈ bindings, other.name.isSome = true) :
    ∀ other ∈ b.put bindings, other.name.isSome = true := by
  have hnames : ∀ name ∈ (b.put bindings).map Binding.name, name.isSome = true := by
    rw [map_name_put]
    split_ifs
    · simpa using h
    · simpa [or_imp, forall_and, hb] using h
  simpa using hnames

theorem nodup_put (b : Binding) (h : (bindings.map Binding.name).Nodup) :
    ((b.put bindings).map Binding.name).Nodup := by
  rw [map_name_put]
  split_ifs with hknown
  · exact h
  · refine nodup_append.mpr ⟨h, nodup_singleton _, fun name hname other hother => ?_⟩
    rw [mem_singleton.mp hother]
    exact fun hsame => hknown (hsame ▸ hname)

theorem named_declare (hb : b.name.isSome = true) (h : scope.Named) : (scope.declare b).Named := by
  unfold declare
  cases hlocals : scope.locals with
  | none => exact ⟨named_put hb h.1, by simp⟩
  | some locals =>
    refine ⟨h.1, named_put hb ?_⟩
    simpa [hlocals] using h.2

theorem forget_sublist (scope : Scope) (name : Option String) :
    ((scope.forget name).locals.getD []).Sublist (scope.locals.getD []) := by
  cases hlocals : scope.locals with
  | none | some locals => simp [forget, hlocals]

theorem named_forget (name : Option String) (h : scope.Named) : (scope.forget name).Named :=
  ⟨h.1, fun b hb => h.2 b ((forget_sublist scope name).subset hb)⟩

theorem Keyed.act (h : scope.Keyed) (action : Action) : (scope.act action).Keyed := by
  have hlocals := h.locals
  cases action with
  | declare name type isMutable =>
    refine ⟨named_declare rfl h.named, ?_, ?_⟩ <;> unfold Scope.act Scope.declare <;>
      cases hcase : scope.locals <;> rw [hcase] at hlocals
    · exact nodup_put _ h.globals
    · exact h.globals
    · exact nodup_nil
    · exact nodup_put _ hlocals
  | enterMethod => exact ⟨⟨h.named.1, by simp [Scope.act, enterMethod]⟩, h.globals, nodup_nil⟩
  | exitMethod => exact ⟨⟨h.named.1, by simp [Scope.act, exitMethod]⟩, h.globals, nodup_nil⟩
  | forget name =>
    exact ⟨named_forget _ h.named, h.globals, hlocals.sublist ((forget_sublist scope _).map _)⟩

theorem keyed_after (actions : List Action) : (after actions).Keyed := by
  have hrun : ∀ scope : Scope, scope.Keyed → (actions.foldl Scope.act scope).Keyed := by
    induction actions with
    | nil => exact fun scope h => h
    | cons action actions ih => exact fun scope h => ih _ (h.act action)
  exact hrun empty ⟨⟨by simp [empty], by simp [empty]⟩, nodup_nil, nodup_nil⟩

theorem map_name_eq (h : ∀ b ∈ bindings, b.name.isSome = true) :
    bindings.map Binding.name = (bindings.filterMap Binding.name).map some := by
  induction bindings with
  | nil => rfl
  | cons b bindings ih =>
    obtain ⟨hb, h⟩ := forall_mem_cons.mp h
    obtain ⟨name, hname⟩ := Option.isSome_iff_exists.mp hb
    rw [map_cons, filterMap_cons_some hname, map_cons, ih h, hname]

/-- The names of the local variables and of the global ones that none of them hides. -/
def names (s : Scope) : List String :=
  let locals := (s.locals.getD []).filterMap Binding.name
  locals ++ (s.globals.filterMap Binding.name).filter fun name => name ∉ locals

theorem visible_eq (h : scope.Named) : scope.visible = scope.names.map some := by
  rw [visible, names, map_name_eq h.1, map_name_eq h.2, map_append, filter_map]
  refine congrArg (map some _ ++ map some ·) (filter_congr fun name _ => ?_)
  generalize filterMap Binding.name (scope.locals.getD []) = locals
  simp

theorem similar_eq (h : scope.Named) (name : String) :
    scope.similar name = .ok ((scope.names.filter fun known => Resembles name known).take 3) := by
  have hall : ∀ names : List String, (names.map some).mapM id = some names := by
    intro names
    induction names with
    | nil => rfl
    | cons known names ih => simp [ih]
  have hsame : ∀ known, resembles name known = decide (Resembles name known) := by
    intro known
    rw [Bool.eq_iff_iff, resembles_iff, decide_eq_true_eq]
  rw [similar, visible_eq h, hall, funext hsame]

theorem Keyed.nodup_names (h : scope.Keyed) : scope.names.Nodup := by
  have hglobals := h.globals
  have hlocals := h.locals
  rw [map_name_eq h.named.1] at hglobals
  rw [map_name_eq h.named.2] at hlocals
  refine nodup_append.mpr ⟨hlocals.of_map some, (hglobals.of_map some).filter _, fun name hname other hother => ?_⟩
  rintro rfl
  exact of_decide_eq_true (mem_filter.mp hother).2 hname

/-- The distance of two texts is the least number of edits from one to the other. After whatever
declarations, what is suggested for a name are the first three of the names in sight, which are all
different, that equal it up to case or are nearly as long and at most two edits away. -/
theorem suggestions_by_least_edits :
    (∀ s t, Edits (distance s t) s t ∧ ∀ n, Edits n s t → distance s t ≤ n) ∧
    ∀ actions name,
      let locals := ((after actions).locals.getD []).filterMap Binding.name
      let globals := (after actions).globals.filterMap Binding.name
      let visible := locals ++ globals.filter fun known => known ∉ locals
      visible.Nodup ∧
        (after actions).similar name = .ok ((visible.filter fun known => Resembles name known).take 3) :=
  ⟨distance_least, fun actions name =>
    ⟨(keyed_after actions).nodup_names, similar_eq (keyed_after actions).named name⟩⟩

end Scope

end CirOutline
