import CirOutline.Proofs.Emission.Sight

/-!
Static scoping. `resolve` says what a name means at a point of a program from the statements that
stand before the point alone: the latest declaration of the name in the same method counts, then the
latest one outside all methods. A variable that a loop has declared for its own block does not count
after the loop, nor does any declaration of the name in that block.

`Agrees` is the invariant that an emission keeps: the variables in sight are those that `resolve`
finds. It is kept by statements without a block, on entering a block and on leaving it.
-/

namespace CirOutline

open List Passed Statement Binding Scope

variable {path : List Nat} {name : Option String} {s : Statement}

def Statement.isStructType : Statement → Bool
  | structType _ => true
  | _ => false

/-- A statement before a point, with what was known when it was passed: the types, and whether it is a
loop whose variable had no declaration. -/
structure Seen extends Passed where
  types : TypeTable
  implicit : Bool

variable {past news : List Seen}

namespace Seen

/-- What has the path is the statement itself or stands in its block. -/
def holds (f : Seen) (path : List Nat) : Bool := f.path.isSuffixOf path

/-- The statement `q`, or one in whose block it stands, has the property. -/
def within (past : List Seen) (q : Seen) (property : Seen → Bool) : Bool :=
  past.any fun f => f.holds q.path && property f

def isMember (past : List Seen) (q : Seen) : Bool :=
  within past q fun f => f.statement.isStructType

/-- The statement stands in the method around the block, or is its header. -/
def sharesMethod (past : List Seen) (parent : List Nat) (q : Seen) : Bool :=
  within past q fun f => f.statement.isMethod && f.holds parent

/-- The statement is, or stands in, a loop over the name that has declared it and has ended. -/
def ended (past : List Seen) (parent : List Nat) (name : Option String) (q : Seen) : Bool :=
  within past q fun f => f.implicit && f.statement.counter? == some name && !f.holds parent

/-- The variables that a statement declares, a loop among them if its variable had no declaration. -/
def bindings (q : Seen) : List Binding :=
  match q.statement with
  | .forLoop start _ => if q.implicit then [⟨iterator? start, CType.int, true⟩] else []
  | s => s.bindings q.types

def latest (past : List Seen) (counts : Seen → Bool) (declared : Seen → Option Binding) :
    Option Binding :=
  past.findSome? fun q => if counts q then declared q else none

/-- The latest declaration of a name in the method around a block. -/
def latestLocal (past : List Seen) (parent : List Nat) (name : Option String) : Option Binding :=
  latest past
    (fun q => sharesMethod past parent q && !isMember past q && !ended past parent name q)
    fun q => find? q.bindings.reverse name

def latestGlobal (past : List Seen) (name : Option String) : Option Binding :=
  latest past (fun q => !within past q (fun f => f.statement.isMethod) && !isMember past q)
    fun q => find? (q.statement.bindings q.types).reverse name

def find (past : List Seen) (parent : List Nat) (name : Option String) : Option Binding :=
  (latestLocal past parent name).or (latestGlobal past name)

end Seen

namespace Passed

def knownTypes (past : List Passed) : TypeTable :=
  past.foldr (fun f table =>
    match f.statement with
    | .structType name => table.register name
    | _ => table) TypeTable.builtin

/-- The statements before a point with what was known when they were passed. -/
def see : List Passed → List Seen
  | [] => []
  | f :: older =>
    { toPassed := f
      types := knownTypes older
      implicit :=
        match f.statement.counter? with
        | some name => (Seen.find (see older) f.path.tail name).isNone
        | none => false } :: see older

theorem mem_of_mem_see {past : List Passed} {f : Seen} (h : f ∈ see past) : f.toPassed ∈ past := by
  induction past with
  | nil => exact absurd h not_mem_nil
  | cons g past ih =>
    rcases mem_cons.mp h with rfl | h
    · exact mem_cons_self
    · exact mem_cons_of_mem g (ih h)

theorem exists_see_of_mem {past : List Passed} {f : Passed} (h : f ∈ past) :
    ∃ seen ∈ see past, seen.toPassed = f := by
  induction past with
  | nil => exact absurd h not_mem_nil
  | cons g past ih =>
    rcases mem_cons.mp h with rfl | h
    · exact ⟨_, mem_cons_self, rfl⟩
    · obtain ⟨seen, hseen, hf⟩ := ih h
      exact ⟨seen, mem_cons_of_mem _ hseen, hf⟩

theorem exists_see_append (news past : List Passed) :
    ∃ marked, see (news ++ past) = marked ++ see past ∧ marked.map Seen.toPassed = news := by
  induction news with
  | nil => exact ⟨[], rfl, rfl⟩
  | cons f news ih =>
    obtain ⟨marked, hsee, hmap⟩ := ih
    exact ⟨_ :: marked, congrArg (List.cons _) hsee, by rw [map_cons, hmap]⟩

end Passed

/-- What a name means in the block with the path, after the statements before. -/
def resolve (past : List Passed) (parent : List Nat) (name : Option String) : Option Binding :=
  Seen.find (see past) parent name

def Passed.seen (f : Passed) (older : List Passed) : Seen where
  toPassed := f
  types := knownTypes older
  implicit :=
    match f.statement.counter? with
    | some name => (resolve older f.path.tail name).isNone
    | none => false

theorem Passed.see_cons (f : Passed) (older : List Passed) : see (f :: older) = f.seen older :: see older := rfl

/-! ### Declarations among statements -/

namespace Seen

theorem holds_iff {f : Seen} : f.holds path = true ↔ f.path <:+ path :=
  isSuffixOf_iff_suffix

theorem latest_cons (q : Seen) (past : List Seen) (counts : Seen → Bool)
    (declared : Seen → Option Binding) : latest (q :: past) counts declared =
      (if counts q then declared q else none).or (latest past counts declared) := by
  rw [latest, findSome?_cons]
  cases (if counts q then declared q else none) <;> rfl

theorem latest_append (news past : List Seen) (counts : Seen → Bool)
    (declared : Seen → Option Binding) : latest (news ++ past) counts declared =
      (latest news counts declared).or (latest past counts declared) :=
  findSome?_append

theorem latest_congr {counts counts' : Seen → Bool} (declared : Seen → Option Binding)
    (h : ∀ q ∈ past, counts q = counts' q) :
    latest past counts declared = latest past counts' declared := by
  induction past with
  | nil => rfl
  | cons q past ih =>
    rw [forall_mem_cons] at h
    rw [latest_cons, latest_cons, h.1, ih h.2]

theorem latest_eq_none {counts : Seen → Bool} (declared : Seen → Option Binding)
    (h : ∀ q ∈ past, counts q = false) : latest past counts declared = none := by
  rw [latest_congr declared h]
  simp [latest]

theorem within_append (past : List Seen) {q : Seen} (property : Seen → Bool)
    (h : ∀ f ∈ news, ¬ f.path <:+ q.path) :
    within (news ++ past) q property = within past q property := by
  have hnews : (news.any fun f => f.holds q.path && property f) = false := by
    rw [any_eq_false]
    intro f hf
    have hholds : f.holds q.path = false := by
      rw [Bool.eq_false_iff, ne_eq, holds_iff]
      exact h f hf
    simp [hholds]
  rw [within, any_append, hnews, Bool.false_or]
  rfl

theorem within_congr {q : Seen} {property property' : Seen → Bool} (h : ∀ f ∈ past, property f = property' f) :
    within past q property = within past q property' := by
  rw [Bool.eq_iff_iff, within, within, any_eq_true, any_eq_true]
  constructor
  · rintro ⟨f, hf, hproperty⟩
    exact ⟨f, hf, by rwa [← h f hf]⟩
  · rintro ⟨f, hf, hproperty⟩
    exact ⟨f, hf, by rwa [h f hf]⟩

theorem latestLocal_append (parent : List Nat) (name : Option String)
    (h : ∀ f ∈ news, ∀ q ∈ past, ¬ f.path <:+ q.path) :
    latestLocal (news ++ past) parent name =
      (latest news (fun q => sharesMethod (news ++ past) parent q && !isMember (news ++ past) q &&
        !ended (news ++ past) parent name q) fun q => find? q.bindings.reverse name).or
      (latestLocal past parent name) := by
  rw [latestLocal, latest_append]
  congr 1
  apply latest_congr
  intro q hq
  have hwithin := fun property => within_append past property fun f hf => h f hf q hq
  simp only [sharesMethod, isMember, ended, hwithin]

theorem latestGlobal_append (name : Option String) (h : ∀ f ∈ news, ∀ q ∈ past, ¬ f.path <:+ q.path) :
    latestGlobal (news ++ past) name =
      (latest news (fun q => !within (news ++ past) q (fun f => f.statement.isMethod) &&
        !isMember (news ++ past) q) fun q =>
          find? (q.statement.bindings q.types).reverse name).or (latestGlobal past name) := by
  rw [latestGlobal, latest_append]
  congr 1
  apply latest_congr
  intro q hq
  have hwithin := fun property => within_append past property fun f hf => h f hf q hq
  simp only [isMember, hwithin]

theorem latestLocal_congr (parent parent' : List Nat)
    (hmethod : ∀ f ∈ past, f.statement.isMethod = true → f.holds parent = f.holds parent')
    (hloop : ∀ f ∈ past, f.implicit = true → f.statement.counter? = some name → f.holds parent = f.holds parent') :
    latestLocal past parent name = latestLocal past parent' name := by
  apply latest_congr
  intro q _
  have hshares : sharesMethod past parent q = sharesMethod past parent' q := by
    apply within_congr
    intro f hf
    cases hmethod' : f.statement.isMethod with
    | false => rfl
    | true => rw [hmethod f hf hmethod']
  have hended : ended past parent name q = ended past parent' name q := by
    apply within_congr
    intro f hf
    cases himplicit : f.implicit && f.statement.counter? == some name with
    | false => rfl
    | true =>
      rw [Bool.and_eq_true, beq_iff_eq] at himplicit
      rw [hloop f hf himplicit.1 himplicit.2]
  rw [hshares, hended]

end Seen

theorem Statement.bindings_of_isStructType (h : s.isStructType = true)
    (types : TypeTable) : s.bindings types = [] := by
  cases s with
  | structType name => rfl
  | _ => cases h

theorem Seen.bindings_of_isStructType {x : Seen} (h : x.statement.isStructType = true) : x.bindings = [] := by
  obtain ⟨⟨path, s⟩, types, implicit⟩ := x
  cases s with
  | structType name => rfl
  | _ => cases h

theorem Statement.isMethod_of_opensBlock (h : s.opensBlock = false) : s.isMethod = false := by
  cases s with
  | method name parameters returnType => cases h
  | _ => rfl

/-! ### Variables in sight -/

theorem Binding.find?_put (b : Binding) (bindings : List Binding) (name : Option String) :
    find? (b.put bindings) name =
      if b.name == name then some b else find? bindings name := by
  induction bindings with
  | nil =>
    rw [put]
    unfold find?
    rw [find?_cons]
    cases b.name == name <;> rfl
  | cons other rest ih =>
    rw [put]
    unfold find? at ih ⊢
    by_cases hsame : other.name = b.name
    · rw [if_pos (beq_iff_eq.mpr hsame), find?_cons, find?_cons, hsame]
      cases b.name == name <;> rfl
    · rw [if_neg (by simpa using hsame), find?_cons, find?_cons, ih]
      by_cases hname : b.name = name
      · have hother : (other.name == name) = false := by
          rw [beq_eq_false_iff_ne, ← hname]
          exact hsame
        simp [hother, hname]
      · simp [hname]

theorem Binding.find?_foldl_put (bs bindings : List Binding) (name : Option String) :
    find? (bs.foldl (fun all b => b.put all) bindings) name =
      (find? bs.reverse name).or (find? bindings name) := by
  induction bs generalizing bindings with
  | nil => rfl
  | cons b bs ih =>
    rw [foldl_cons, ih, find?_put, reverse_cons]
    simp only [find?, find?_append, Option.or_assoc]
    congr 1
    rw [find?_cons]
    cases b.name == name <;> rfl

section

variable (bs : List Binding)
include bs

theorem Scope.foldl_declare (scope : Scope) :
    bs.foldl declare scope = match scope.locals with
      | none => { scope with globals := bs.foldl (fun all b => b.put all) scope.globals }
      | some locals => { scope with locals := some (bs.foldl (fun all b => b.put all) locals) } := by
  induction bs generalizing scope with
  | nil => cases hlocals : scope.locals <;> simp [← hlocals]
  | cons b bs ih =>
    rw [foldl_cons, ih]
    unfold declare
    cases hlocals : scope.locals <;> simp

theorem Scope.isSome_foldl_declare (scope : Scope) :
    (bs.foldl declare scope).locals.isSome = scope.locals.isSome := by
  rw [foldl_declare]
  cases scope.locals <;> simp

theorem Scope.locals_foldl_declare (scope : Scope) (name : Option String) :
    find? ((bs.foldl declare scope).locals.getD []) name =
      (if scope.locals.isSome then find? bs.reverse name else none).or
      (find? (scope.locals.getD []) name) := by
  rw [foldl_declare]
  cases scope.locals with
  | none => simp
  | some locals => exact find?_foldl_put bs locals name

theorem Scope.globals_foldl_declare (scope : Scope) (name : Option String) :
    find? (bs.foldl declare scope).globals name = (if scope.locals.isSome then none else find? bs.reverse name).or
      (find? scope.globals name) := by
  rw [foldl_declare]
  cases scope.locals with
  | none => exact find?_foldl_put bs scope.globals name
  | some locals => rfl

end

theorem Binding.find?_filter (bindings : List Binding) (dropped name : Option String) :
    find? (bindings.filter fun b => b.name != dropped) name =
      if name = dropped then none else find? bindings name := by
  unfold find?
  rw [List.find?_filter]
  split_ifs with hname
  · subst hname
    rw [find?_eq_none]
    simp
  · congr 1
    funext b
    by_cases hb : b.name = name
    · simp [hb, hname]
    · simp [hb]

theorem Scope.lookup_eq (scope : Scope) (name : Option String) : scope.lookup name =
    (find? (scope.locals.getD []) name).or (find? scope.globals name) := by
  unfold lookup
  split
  · next b hfound => rw [hfound]; rfl
  · next hfound => rw [hfound]; rfl

/-! ### The invariant of an emission -/

theorem not_suffix_of_ne {i j : Nat} {parent path : List Nat} (hij : i ≠ j) (hi : (i :: parent) <:+ path) :
    ¬ (j :: parent) <:+ path := by
  intro hj
  have hsame := (suffix_of_suffix_length_le hi hj (by simp)).eq_of_length (by simp)
  exact hij (List.cons.inj hsame).1

namespace Passed

def InMethod (past : List Passed) (path : List Nat) : Prop :=
  ∃ m ∈ past, m.statement.isMethod = true ∧ m.path <:+ path

/-- Nothing has been passed at the position or after it. -/
def Fresh (past : List Passed) (parent : List Nat) (index : Nat) : Prop :=
  ∀ g ∈ past, ∀ j, index ≤ j → ¬ (j :: parent) <:+ g.path

variable {past news : List Passed} {parent : List Nat} {index : Nat}

theorem suffix_leaving (hnews : ∀ f ∈ news, ∃ j, (j :: index :: parent) <:+ f.path) (s : Statement) :
    ∀ f ∈ news ++ [⟨index :: parent, s⟩], (index :: parent) <:+ f.path := by
  intro f hf
  rcases mem_append.mp hf with hf | hf
  · obtain ⟨j, hj⟩ := hnews f hf
    exact (suffix_cons j _).trans hj
  · rw [mem_singleton.mp hf]

section

variable (h : Fresh past parent index)
include h

theorem Fresh.suffix_child {g : Passed} (hg : g ∈ past) : g.path <:+ index :: parent ↔ g.path <:+ parent := by
  rw [suffix_cons_iff, or_iff_right]
  intro hsame
  exact h g hg index (Nat.le_refl index) (hsame ▸ suffix_rfl)

theorem Fresh.inside (s : Statement) : Fresh (⟨index :: parent, s⟩ :: past) (index :: parent) 0 := by
  intro g hg j _ hsuffix
  rcases mem_cons.mp hg with rfl | hg
  · exact Nat.not_succ_le_self _ hsuffix.length_le
  · exact h g hg index (Nat.le_refl index) ((suffix_cons j _).trans hsuffix)

theorem Fresh.after (hnews : ∀ f ∈ news, (index :: parent) <:+ f.path) : Fresh (news ++ past) parent (index + 1) := by
  intro f hf j hj
  rcases mem_append.mp hf with hf | hf
  · exact not_suffix_of_ne (by omega) (hnews f hf)
  · exact h f hf j (by omega)

theorem Fresh.leaving (hnews : ∀ f ∈ news, ∃ j, (j :: index :: parent) <:+ f.path)
    (s : Statement) : Fresh (news ++ ⟨index :: parent, s⟩ :: past) parent (index + 1) := by
  rw [append_cons]
  exact h.after (suffix_leaving hnews s)

theorem Fresh.inMethod_inside (hmethod : s.isMethod = false) :
    InMethod (⟨index :: parent, s⟩ :: past) (index :: parent) ↔ InMethod past parent := by
  rw [InMethod, exists_mem_cons_iff]
  simp only [hmethod, Bool.false_eq_true, false_and, false_or]
  constructor
  · rintro ⟨m, hm, hismethod, hpath⟩
    exact ⟨m, hm, hismethod, (h.suffix_child hm).mp hpath⟩
  · rintro ⟨m, hm, hismethod, hpath⟩
    exact ⟨m, hm, hismethod, (h.suffix_child hm).mpr hpath⟩

end

theorem inMethod_append (hnews : ∀ f ∈ news, ∃ j, (j :: parent) <:+ f.path) :
    InMethod (news ++ past) parent ↔ InMethod past parent := by
  constructor
  · rintro ⟨m, hm, hismethod, hpath⟩
    rcases mem_append.mp hm with hm | hm
    · obtain ⟨j, hj⟩ := hnews m hm
      exact absurd (hj.trans hpath).length_le (Nat.not_succ_le_self _)
    · exact ⟨m, hm, hismethod, hpath⟩
  · rintro ⟨m, hm, hismethod, hpath⟩
    exact ⟨m, mem_append_right _ hm, hismethod, hpath⟩

end Passed

/-- What is known at a position of a block is what the statements before it say. No named type is
open, and nothing has been passed from the position on. -/
structure Agrees (past : List Passed) (parent : List Nat) (index : Nat) (v : Sight) : Prop where
  types : v.types = knownTypes past
  globals : ∀ name, find? v.scope.globals name = Seen.latestGlobal (see past) name
  locals : ∀ name,
    find? (v.scope.locals.getD []) name = Seen.latestLocal (see past) parent name
  inMethod : v.inMethod = v.scope.locals.isSome
  method : v.inMethod = true ↔ InMethod past parent
  unnamed : ∀ f ∈ past, f.statement.isStructType = true → ¬ f.path <:+ parent
  rooted : ∀ f ∈ past, f.path ≠ []
  fresh : Fresh past parent index

namespace Agrees

variable {past news : List Passed} {parent : List Nat} {index : Nat} {v : Sight}

theorem lookup (h : Agrees past parent index v) (name : Option String) :
    v.scope.lookup name = resolve past parent name := by
  rw [lookup_eq, h.locals, h.globals]
  rfl

theorem start (pool : TemporaryPool) : Agrees [] [] 0 (Emitter.start pool lines).sight where
  types := rfl
  globals := fun _ => rfl
  locals := fun _ => rfl
  inMethod := rfl
  method := by simp [Emitter.sight, Emitter.start, InMethod]
  unnamed := by simp
  rooted := by simp
  fresh := by simp [Fresh]

section

variable (h : Agrees past parent index v)
include h

theorem holds_child {f : Seen} (hf : f ∈ see past) : f.holds (index :: parent) = f.holds parent := by
  rw [Bool.eq_iff_iff, Seen.holds_iff, Seen.holds_iff]
  exact h.fresh.suffix_child (mem_of_mem_see hf)

theorem holds_own {f : Seen} (hpath : path = parent ∨ path = index :: parent) (hf : f ∈ see past) :
    f.holds path = f.holds parent := by
  rcases hpath with rfl | rfl
  · rfl
  · exact h.holds_child hf

theorem any_method : ((see past).any fun f => f.holds parent && f.statement.isMethod) = v.inMethod := by
  rw [Bool.eq_iff_iff, h.method, any_eq_true]
  constructor
  · rintro ⟨f, hf, hholds⟩
    rw [Bool.and_eq_true, Seen.holds_iff] at hholds
    exact ⟨f.toPassed, mem_of_mem_see hf, hholds.2, hholds.1⟩
  · rintro ⟨f, hf, hmethod, hpath⟩
    obtain ⟨seen, hseen, rfl⟩ := exists_see_of_mem hf
    exact ⟨seen, hseen, by rw [Bool.and_eq_true, Seen.holds_iff]; exact ⟨hpath, hmethod⟩⟩

theorem any_structType : ((see past).any fun f => f.holds parent && f.statement.isStructType) = false := by
  rw [any_eq_false]
  intro f hf hboth
  rw [Bool.and_eq_true, Seen.holds_iff] at hboth
  exact h.unnamed _ (mem_of_mem_see hf) hboth.2 hboth.1

end

variable {x : Seen}

section

variable (h : Agrees past parent index v) (hx : x.path = index :: parent)
include h hx

theorem within_self (property : Seen → Bool) : Seen.within (x :: see past) x property =
      (property x || (see past).any fun f => f.holds parent && property f) := by
  have hself : x.holds x.path = true := Seen.holds_iff.mpr suffix_rfl
  rw [Seen.within, any_cons, hself, Bool.true_and]
  congr 1
  rw [Bool.eq_iff_iff, any_eq_true, any_eq_true]
  constructor
  · rintro ⟨f, hf, hboth⟩
    rw [hx, h.holds_child hf] at hboth
    exact ⟨f, hf, hboth⟩
  · rintro ⟨f, hf, hboth⟩
    rw [← h.holds_child hf, ← hx] at hboth
    exact ⟨f, hf, hboth⟩

theorem isMember_self : Seen.isMember (x :: see past) x = x.statement.isStructType := by
  rw [Seen.isMember, h.within_self hx, h.any_structType, Bool.or_false]

theorem fresh_self : ∀ f ∈ [x], ∀ q ∈ see past, ¬ f.path <:+ q.path := by
  intro f hf q hq
  rw [mem_singleton.mp hf, hx]
  exact h.fresh _ (mem_of_mem_see hq) index (Nat.le_refl index)

theorem ended_self
    (hpath : path = parent ∨ path = index :: parent) (hloop : x.implicit = true → path = index :: parent)
    (name : Option String) : Seen.ended (x :: see past) path name x = false := by
  rw [Seen.ended, h.within_self hx, Bool.or_eq_false_iff]
  constructor
  · cases himplicit : x.implicit with
    | false => simp
    | true =>
      have hself : x.holds path = true := by
        rw [Seen.holds_iff, hx, hloop himplicit]
      simp [hself]
  · rw [any_eq_false]
    intro f hf
    rw [h.holds_own hpath hf]
    cases f.holds parent <;> simp

theorem latestLocal_self
    (hpath : path = parent ∨ path = index :: parent) (hloop : x.implicit = true → path = index :: parent)
    (name : Option String) :
    Seen.latestLocal (x :: see past) path name = (if x.statement.isMethod && x.holds path || v.inMethod then
        find? x.bindings.reverse name else none).or
      (Seen.latestLocal (see past) parent name) := by
  have hshares : Seen.sharesMethod (x :: see past) path x =
      (x.statement.isMethod && x.holds path || v.inMethod) := by
    rw [Seen.sharesMethod, h.within_self hx, ← h.any_method]
    congr 1
    rw [Bool.eq_iff_iff, any_eq_true, any_eq_true]
    constructor
    · rintro ⟨f, hf, hboth⟩
      rw [h.holds_own hpath hf] at hboth
      exact ⟨f, hf, by simp_all⟩
    · rintro ⟨f, hf, hboth⟩
      refine ⟨f, hf, ?_⟩
      rw [h.holds_own hpath hf]
      simp_all
  change Seen.latestLocal ([x] ++ see past) path name = _
  rw [Seen.latestLocal_append path name (h.fresh_self hx), singleton_append, Seen.latest_cons, hshares,
    h.isMember_self hx, h.ended_self hx hpath hloop, Seen.latestLocal_congr path parent
    (fun _ hf _ => h.holds_own hpath hf) fun _ hf _ _ => h.holds_own hpath hf]
  cases hname : x.statement.isStructType with
  | false => simp [Seen.latest]
  | true => simp [Seen.latest, Seen.bindings_of_isStructType hname, Binding.find?]

theorem latestGlobal_self (name : Option String) : Seen.latestGlobal (x :: see past) name =
      (if x.statement.isMethod || v.inMethod then none else
        find? (x.statement.bindings x.types).reverse name).or
      (Seen.latestGlobal (see past) name) := by
  change Seen.latestGlobal ([x] ++ see past) name = _
  rw [Seen.latestGlobal_append name (h.fresh_self hx), singleton_append, Seen.latest_cons,
    h.isMember_self hx, h.within_self hx, h.any_method]
  cases hname : x.statement.isStructType with
  | false => cases x.statement.isMethod || v.inMethod <;> simp [Seen.latest]
  | true => simp [Seen.latest, Statement.bindings_of_isStructType hname, Binding.find?]

end

theorem not_holds_parent (hx : x.path = index :: parent) : x.holds parent = false := by
  rw [Bool.eq_false_iff, ne_eq, Seen.holds_iff, hx]
  intro hsuffix
  exact Nat.not_succ_le_self _ hsuffix.length_le

section

variable (h : Agrees past parent index v)
include h

theorem after (hs : s.opensBlock = false ∨ s.isStructType = true) :
    Agrees (⟨index :: parent, s⟩ :: past) parent (index + 1) (v.after s) := by
  have hmethod : s.isMethod = false := by
    cases s with
    | method name parameters returnType => simp [opensBlock, isStructType] at hs
    | _ => rfl
  have hseen : (⟨index :: parent, s⟩ : Passed).seen past = ⟨⟨index :: parent, s⟩, knownTypes past, false⟩ ∧
      Seen.bindings ⟨⟨index :: parent, s⟩, knownTypes past, false⟩ =
        s.bindings (knownTypes past) := by
    cases s with
    | forLoop start stop => simp [opensBlock, isStructType] at hs
    | _ => exact ⟨rfl, rfl⟩
  have hsight : v.after s = ⟨knownTypes (⟨index :: parent, s⟩ :: past),
      (s.bindings (knownTypes past)).foldl declare v.scope, v.inMethod⟩ := by
    rw [← h.types]
    cases s <;> simp [Sight.after, knownTypes, bindings, h.types]
  have hx : (⟨⟨index :: parent, s⟩, knownTypes past, false⟩ : Seen).path = index :: parent := rfl
  have hfresh : Fresh ([⟨index :: parent, s⟩] ++ past) parent (index + 1) :=
    h.fresh.after (forall_mem_singleton.mpr suffix_rfl)
  rw [hsight]
  refine ⟨rfl, fun name => ?_, fun name => ?_, ?_, ?_, ?_, ?_, hfresh⟩
  · rw [see_cons, hseen.1, h.latestGlobal_self hx, globals_foldl_declare, h.globals, ← h.inMethod]
    simp [hmethod]
  · rw [see_cons, hseen.1, h.latestLocal_self hx (.inl rfl) (by simp), hseen.2,
      locals_foldl_declare, h.locals, ← h.inMethod]
    simp [hmethod]
  · rw [isSome_foldl_declare]
    exact h.inMethod
  · rw [h.method, InMethod, InMethod, exists_mem_cons_iff]
    simp [hmethod]
  · intro f hf hname
    rcases mem_cons.mp hf with rfl | hf
    · intro hsuffix
      exact Nat.not_succ_le_self _ hsuffix.length_le
    · exact h.unnamed f hf hname
  · exact forall_mem_cons.mpr ⟨cons_ne_nil _ _, h.rooted⟩

theorem member {y : Passed} (hopens : y.statement.opensBlock = false)
    (hname : ∃ f ∈ past, f.statement.isStructType = true ∧ f.path <:+ y.path)
    (hfresh : ∀ f ∈ past, ¬ y.path <:+ f.path) (hparent : ¬ y.path <:+ parent)
    (hpath : ∀ j, index ≤ j → ¬ (j :: parent) <:+ y.path) : Agrees (y :: past) parent index v := by
  have hmethod := isMethod_of_opensBlock hopens
  have hnews : ∀ f ∈ [y.seen past], ∀ q ∈ see past, ¬ f.path <:+ q.path := by
    intro f hf q hq
    rw [mem_singleton.mp hf]
    exact hfresh _ (mem_of_mem_see hq)
  have hmember : Seen.isMember (y.seen past :: see past) (y.seen past) = true := by
    obtain ⟨f, hf, htype, hsuffix⟩ := hname
    obtain ⟨seen, hseen, rfl⟩ := exists_see_of_mem hf
    apply any_eq_true.mpr
    exact ⟨seen, mem_cons_of_mem _ hseen, by
      rw [Bool.and_eq_true, Seen.holds_iff]; exact ⟨hsuffix, htype⟩⟩
  refine ⟨?_, fun name => ?_, fun name => ?_, h.inMethod, ?_, ?_, ?_, ?_⟩
  · rw [h.types]
    obtain ⟨path, s⟩ := y
    cases s with
    | structType name => cases hopens
    | _ => rfl
  · rw [h.globals, see_cons, ← singleton_append, Seen.latestGlobal_append name hnews,
      singleton_append, Seen.latest_cons, hmember]
    simp [Seen.latest]
  · rw [h.locals, see_cons, ← singleton_append, Seen.latestLocal_append parent name hnews,
      singleton_append, Seen.latest_cons, hmember]
    simp [Seen.latest]
  · rw [h.method, InMethod, InMethod, exists_mem_cons_iff]
    simp [hmethod]
  · exact forall_mem_cons.mpr ⟨fun _ => hparent, h.unnamed⟩
  · refine forall_mem_cons.mpr ⟨?_, h.rooted⟩
    intro hnil
    exact hparent (hnil ▸ nil_suffix)
  · exact forall_mem_cons.mpr ⟨hpath, h.fresh⟩

theorem after_struct {type : String} {member : Statement} (hmember : member.opensBlock = false) :
    Agrees (⟨0 :: index :: parent, member⟩ :: ⟨index :: parent, .structType type⟩ :: past) parent (index + 1)
      (v.after (.structType type)) := by
  refine (h.after (.inr rfl)).member hmember ⟨_, mem_cons_self, rfl, suffix_cons 0 _⟩ ?_ ?_ fun j hj => ?_
  · exact fun f hf => h.fresh.inside (.structType type) f hf 0 (Nat.le_refl 0)
  · intro hsuffix
    exact Nat.not_succ_le_self _ ((suffix_cons 0 (index :: parent)).trans hsuffix).length_le
  · exact not_suffix_of_ne (i := index) (by omega) (suffix_cons 0 _)

theorem implicit_iff (s : Statement) : ((⟨index :: parent, s⟩ : Passed).seen past).implicit = v.scope.lacks s := by
  unfold lacks
  cases hcounter : s.counter? with
  | none => simp [seen, hcounter]
  | some name => simp [seen, hcounter, h.lookup]

theorem types_inside (hname : s.isStructType = false) : v.types = knownTypes (⟨index :: parent, s⟩ :: past) := by
  rw [h.types]
  cases s with
  | structType name => cases hname
  | _ => rfl

theorem unnamed_inside (hname : s.isStructType = false) : ∀ f ∈ (⟨index :: parent, s⟩ : Passed) :: past,
    f.statement.isStructType = true → ¬ f.path <:+ index :: parent := by
  refine forall_mem_cons.mpr ⟨fun htype => absurd (htype.symm.trans hname) (by decide), ?_⟩
  intro f hf htype hpath
  exact h.unnamed f hf htype ((h.fresh.suffix_child hf).mp hpath)

theorem entering_block (hopens : s.opensBlock = true)
    (hname : s.isStructType = false) (hmethod : s.isMethod = false)
    (hloop : s.counter? ≠ none → v.inMethod = true) :
    Agrees (⟨index :: parent, s⟩ :: past) (index :: parent) 0 (v.entering s) := by
  let x := (⟨index :: parent, s⟩ : Passed).seen past
  have hx : x.path = index :: parent := rfl
  have hsight : v.entering s = { v with scope := x.bindings.foldl declare v.scope } := by
    have himplicit : x.implicit = v.scope.lacks s := h.implicit_iff s
    cases s with
    | forLoop start stop =>
      change (if v.scope.lacks (.forLoop start stop) then _ else v) =
        { v with scope := (if x.implicit then _ else _ : List Binding).foldl declare v.scope }
      rw [himplicit]
      split_ifs <;> rfl
    | method name parameters returnType => cases hmethod
    | structType name => cases hname
    | comment text | declaration typeName names isMutable => cases hopens
    | _ => rfl
  have hbindings : v.inMethod = false → x.bindings = s.bindings x.types := by
    intro houtside
    cases s with
    | forLoop start stop => exact absurd (hloop nofun) (by simp [houtside])
    | _ => rfl
  rw [hsight]
  refine ⟨h.types_inside hname, fun name => ?_, fun name => ?_, ?_, ?_, h.unnamed_inside hname, ?_, h.fresh.inside s⟩
  · rw [see_cons, h.latestGlobal_self hx, globals_foldl_declare, h.globals, ← h.inMethod]
    cases houtside : v.inMethod with
    | true => simp
    | false => simp [hbindings houtside, show x.statement = s from rfl, hmethod]
  · rw [see_cons, h.latestLocal_self hx (.inr rfl) fun _ => rfl, locals_foldl_declare, h.locals, ← h.inMethod]
    simp [show x.statement = s from rfl, hmethod]
  · rw [isSome_foldl_declare]
    exact h.inMethod
  · rw [h.method, h.fresh.inMethod_inside hmethod]
  · exact forall_mem_cons.mpr ⟨cons_ne_nil _ _, h.rooted⟩

end

theorem outside (h : Agrees past [] index v) : v.inMethod = false := by
  rw [Bool.eq_false_iff, ne_eq, h.method]
  rintro ⟨f, hf, -, hpath⟩
  exact h.rooted f hf (suffix_nil.mp hpath)

theorem entering_method (h : Agrees past [] index v) (hmethod : s.isMethod = true) :
    Agrees (⟨[index], s⟩ :: past) [index] 0 (v.entering s) := by
  let x := (⟨[index], s⟩ : Passed).seen past
  have hx : x.path = [index] := rfl
  have hsight : v.entering s = { v with
      scope := x.bindings.foldl declare v.scope.enterMethod
      inMethod := true } := by
    cases s with
    | method name parameters returnType =>
      change _ = Sight.mk v.types (((Statement.method name parameters returnType).bindings
        (knownTypes past)).foldl declare v.scope.enterMethod) true
      rw [← h.types]
      rfl
    | _ => cases hmethod
  have hname : s.isStructType = false := by
    cases s with
    | method name parameters returnType => rfl
    | _ => cases hmethod
  have hlocals : v.scope.locals = none := by
    have := h.inMethod
    rw [h.outside] at this
    exact Option.not_isSome_iff_eq_none.mp (by simp [← this])
  rw [hsight]
  refine ⟨h.types_inside hname, fun name => ?_, fun name => ?_, ?_, ?_, h.unnamed_inside hname, ?_, h.fresh.inside s⟩
  · rw [see_cons, h.latestGlobal_self hx, globals_foldl_declare, ← h.globals]
    simp [show x.statement = s from rfl, hmethod, enterMethod]
  · have hself : x.holds [index] = true := Seen.holds_iff.mpr suffix_rfl
    rw [see_cons, h.latestLocal_self hx (.inr rfl) fun _ => rfl, locals_foldl_declare, ← h.locals, hlocals]
    simp [show x.statement = s from rfl, hmethod, hself, enterMethod]
  · rw [isSome_foldl_declare]
    rfl
  · exact ⟨fun _ => ⟨_, mem_cons_self, hmethod, suffix_rfl⟩, fun _ => rfl⟩
  · exact forall_mem_cons.mpr ⟨cons_ne_nil _ _, h.rooted⟩

section

variable {last : Nat} {w : Sight} (hnews : ∀ f ∈ news, ∃ j, (j :: index :: parent) <:+ f.path)

include hnews

theorem exists_see_leaving (past : List Passed) (s : Statement) :
    ∃ marked, see (news ++ ⟨index :: parent, s⟩ :: past) =
        marked ++ (⟨index :: parent, s⟩ : Passed).seen past :: see past ∧
      ∀ f ∈ marked, ∃ j, (j :: index :: parent) <:+ f.path := by
  obtain ⟨marked, hsee, hmap⟩ := exists_see_append news (⟨index :: parent, s⟩ :: past)
  refine ⟨marked, hsee.trans (by rw [see_cons]), fun f hf => hnews f.toPassed ?_⟩
  rw [← hmap]
  exact mem_map_of_mem hf

section

variable (h : Agrees past parent index v)
include h

theorem latestLocal_dropped (hlacks : v.scope.lacks s = true) (hcounter : s.counter? = some name) :
    Seen.latestLocal (see (news ++ ⟨index :: parent, s⟩ :: past)) parent name = none := by
  obtain ⟨marked, hsee, hmarked⟩ := exists_see_leaving hnews past s
  let x := (⟨index :: parent, s⟩ : Passed).seen past
  have himplicit : x.implicit = true := (h.implicit_iff s).trans hlacks
  have hunder : ∀ f ∈ marked ++ [x], (index :: parent) <:+ f.path := by
    intro f hf
    rcases mem_append.mp hf with hf | hf
    · obtain ⟨j, hj⟩ := hmarked f hf
      exact (suffix_cons j _).trans hj
    · rw [mem_singleton.mp hf]
      exact suffix_rfl
  have hfresh : ∀ f ∈ marked ++ [x], ∀ q ∈ see past, ¬ f.path <:+ q.path := by
    intro f hf q hq hsuffix
    exact h.fresh _ (mem_of_mem_see hq) index (Nat.le_refl index) ((hunder f hf).trans hsuffix)
  have hbefore : Seen.latestLocal (see past) parent name = none := by
    have hfind : (resolve past parent name).isNone = true := by
      simpa [x, seen, hcounter] using himplicit
    rw [Option.isNone_iff_eq_none, resolve, Seen.find, Option.or_eq_none_iff] at hfind
    exact hfind.1
  have hinside : ∀ q ∈ marked ++ [x],
      Seen.ended ((marked ++ [x]) ++ see past) parent name q = true := by
    intro q hq
    apply any_eq_true.mpr
    refine ⟨x, by simp, ?_⟩
    have hholds : x.holds q.path = true := Seen.holds_iff.mpr (hunder q hq)
    have hleft : x.holds parent = false := not_holds_parent (show x.path = index :: parent from rfl)
    simp [hholds, hleft, himplicit, show x.statement = s from rfl, hcounter]
  rw [hsee, append_cons, Seen.latestLocal_append parent name hfresh, hbefore, Option.or_none]
  apply Seen.latest_eq_none
  intro q hq
  rw [hinside q hq]
  simp

theorem latestLocal_kept (hmethod : s.isMethod = false)
    (hkept : ¬ (v.scope.lacks s = true ∧ s.counter? = some name)) :
    Seen.latestLocal (see (news ++ ⟨index :: parent, s⟩ :: past)) parent name =
      Seen.latestLocal (see (news ++ ⟨index :: parent, s⟩ :: past)) (index :: parent) name := by
  obtain ⟨marked, hsee, hmarked⟩ := exists_see_leaving hnews past s
  have holds : ∀ f ∈ marked ++ (⟨index :: parent, s⟩ : Passed).seen past :: see past,
      (f.statement.isMethod = true ∨ f.implicit = true ∧ f.statement.counter? = some name) →
      f.holds parent = f.holds (index :: parent) := by
    intro f hf hkind
    rcases mem_append.mp hf with hf | hf
    · obtain ⟨j, hj⟩ := hmarked f hf
      have hlong := hj.length_le
      simp only [length_cons] at hlong
      have hnot : ∀ path : List Nat, path.length < f.path.length → f.holds path = false := by
        intro path hpath
        rw [Bool.eq_false_iff, ne_eq, Seen.holds_iff]
        intro hsuffix
        exact absurd hsuffix.length_le (by omega)
      rw [hnot parent (by omega), hnot (index :: parent) (by rw [length_cons]; omega)]
    · rcases mem_cons.mp hf with rfl | hf
      · rcases hkind with hkind | hkind
        · exact absurd (hkind.symm.trans hmethod) (by decide)
        · exact absurd ⟨(h.implicit_iff s).symm.trans hkind.1, hkind.2⟩ hkept
      · exact (h.holds_child hf).symm
  rw [hsee]
  exact Seen.latestLocal_congr parent (index :: parent) (fun f hf hkind => holds f hf (.inl hkind))
    fun f hf himp hcounter => holds f hf (.inr ⟨himp, hcounter⟩)

theorem latestLocal_leaving (hmethod : s.isMethod = false) (name : Option String) :
    Seen.latestLocal (see (news ++ ⟨index :: parent, s⟩ :: past)) parent name =
      if v.scope.lacks s = true ∧ s.counter? = some name then none
      else Seen.latestLocal (see (news ++ ⟨index :: parent, s⟩ :: past)) (index :: parent) name := by
  split_ifs with hdropped
  · exact h.latestLocal_dropped hnews hdropped.1 hdropped.2
  · exact h.latestLocal_kept hnews hmethod hdropped

theorem leaving_block (hinner : Agrees (news ++ ⟨index :: parent, s⟩ :: past) (index :: parent) last w)
    (hmethod : s.isMethod = false) :
    Agrees (news ++ ⟨index :: parent, s⟩ :: past) parent (index + 1) (v.leaving s w) := by
  have hsight : (v.leaving s w).types = w.types ∧ (v.leaving s w).inMethod = w.inMethod ∧
      (v.leaving s w).scope.globals = w.scope.globals ∧
      (v.leaving s w).scope.locals.isSome = w.scope.locals.isSome ∧
      ∀ name, find? ((v.leaving s w).scope.locals.getD []) name =
        if v.scope.lacks s = true ∧ s.counter? = some name then none
        else find? (w.scope.locals.getD []) name := by
    cases s with
    | forLoop start stop =>
      simp only [Sight.leaving]
      split_ifs with hlacks
      · refine ⟨rfl, rfl, rfl, by simp [forget], fun name => ?_⟩
        cases hlocals : w.scope.locals with
        | none => simp [Scope.forget, hlocals, Binding.find?]
        | some locals =>
          simp only [Scope.forget, hlocals, Option.map_some, Option.getD_some, Binding.find?_filter]
          simp [counter?, hlacks, eq_comm]
      · exact ⟨rfl, rfl, rfl, rfl, fun name => by simp [hlacks]⟩
    | method name parameters returnType => cases hmethod
    | _ => exact ⟨rfl, rfl, rfl, rfl, fun name => by simp [counter?]; rfl⟩
  obtain ⟨htypes, hinMethod, hglobals, hsome, hlocals⟩ := hsight
  refine ⟨htypes.trans hinner.types, fun name => ?_, fun name => ?_, ?_, ?_, ?_, hinner.rooted,
    h.fresh.leaving hnews s⟩
  · rw [hglobals, hinner.globals]
  · rw [hlocals, h.latestLocal_leaving hnews hmethod, hinner.locals]
  · rw [hinMethod, hsome]
    exact hinner.inMethod
  · rw [hinMethod, hinner.method]
    rw [inMethod_append hnews, h.fresh.inMethod_inside hmethod, append_cons,
      inMethod_append fun f hf => ⟨index, suffix_leaving hnews s f hf⟩]
  · intro f hf htype hpath
    exact hinner.unnamed f hf htype (hpath.trans (suffix_cons index parent))

end

omit hnews in
theorem leaving_method (h : Agrees past [] index v) (hnews : ∀ f ∈ news, ∃ j, [j, index] <:+ f.path)
    (hinner : Agrees (news ++ ⟨[index], s⟩ :: past) [index] last w) (hmethod : s.isMethod = true) :
    Agrees (news ++ ⟨[index], s⟩ :: past) [] (index + 1) (v.leaving s w) := by
  have hsight : v.leaving s w = { w with scope := w.scope.exitMethod, inMethod := false } := by
    cases s with
    | method name parameters returnType => rfl
    | _ => cases hmethod
  have hrooted : ∀ f ∈ news ++ (⟨[index], s⟩ : Passed) :: past, ¬ f.path <:+ [] := by
    intro f hf hpath
    exact hinner.rooted f hf (suffix_nil.mp hpath)
  rw [hsight]
  refine ⟨hinner.types, hinner.globals, fun name => ?_, rfl, ?_, fun f hf _ => hrooted f hf,
    hinner.rooted, h.fresh.leaving hnews s⟩
  · symm
    apply Seen.latest_eq_none
    intro q _
    have hshares : Seen.sharesMethod (see (news ++ ⟨[index], s⟩ :: past)) [] q = false := by
      apply any_eq_false.mpr
      intro f hf hall
      simp only [Bool.and_eq_true, Seen.holds_iff] at hall
      exact hrooted _ (mem_of_mem_see hf) hall.2.2
    simp [hshares]
  · simp only [Bool.false_eq_true, false_iff]
    rintro ⟨f, hf, -, hpath⟩
    exact hrooted f hf hpath

end

end Agrees

end CirOutline
