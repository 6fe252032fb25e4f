import CirOutline.Proofs.Emission.Directives

/-!
The options of modes, played on the tree of a program. The emission records the option of a mode that is
selected, in the order of the source. The preprocessor meets the selections in the order of the lines, and
only those that no condition hides from it. `Node.play` follows both, the option that is recorded and the
option that is actually defined, and stops where a second option of a mode would be defined. The lines of
a block do to the preprocessor what playing the block says (`Printer.block_plays`).
-/

namespace CirOutline

open List Option Function Mode Runs Skips ModeRegistry Node

variable {c c' : Context} {choice : String} {how : Option Mode} {n : Node} {pieces : List Piece}

/-- For every mode the option that is recorded as selected, and the option that is defined. -/
structure Selection where
  recorded : String → Option String
  actual : String → Option String

namespace Selection

def empty : Selection := ⟨fun _ => none, fun _ => none⟩

def register (mode : String) (σ : Selection) : Selection :=
  { σ with recorded := update σ.recorded mode none }

/-- A selection by default, whose lines are read or not: it counts if nothing is selected. -/
def fallback (live : Bool) (mode choice : String) (σ : Selection) : Selection where
  recorded := update σ.recorded mode (some ((σ.recorded mode).getD choice))
  actual := if live then update σ.actual mode (some ((σ.actual mode).getD choice)) else σ.actual

/-- A selection, whose lines are read or not: it undefines what is recorded and defines the option. There
is none if another option stays defined. -/
def select? (live : Bool) (mode choice : String) (σ : Selection) : Option Selection :=
  if live then
    if σ.actual mode = none ∨ σ.actual mode = some choice ∨ σ.actual mode = σ.recorded mode then
      some ⟨update σ.recorded mode (some choice), update σ.actual mode (some choice)⟩
    else none
  else some { σ with recorded := update σ.recorded mode (some choice) }

end Selection

namespace Node

mutual
/-- Plays a node whose lines are read or not, in a block that depends on the mode `how` or on none. -/
def play (live : Bool) (how : Option String) : Node → Selection → Option Selection
  | mk s _ body, σ =>
    match s with
    | .setMode mode _ => some (σ.register mode)
    | .defaultMode mode choice => some (σ.fallback live mode choice)
    | .defineMode mode choice => σ.select? live mode choice
    -- the lines of an option are read if the option is defined where they start
    | .option choice => playAll (live && how.bind σ.actual == some choice) none body σ
    | s =>
      match s.inside? with
      | some how' => playAll live how' body σ
      | none => some σ

def playAll (live : Bool) (how : Option String) : List Node → Selection → Option Selection
  | [], σ => some σ
  | n :: ns, σ => (n.play live how σ).bind fun σ' => playAll live how ns σ'
end

variable {live : Bool} {how how' : Option String} {s : Statement} {location : Option Location}
  {body : List Node}

theorem play_inside (h : s.inside? = some how') (σ : Selection) :
    (mk s location body).play live how σ = playAll live how' body σ := by
  cases s <;> simp [Statement.inside?] at h <;> subst h <;> rfl

end Node

/-! ### The modes of a program -/

/-- The modes of a program: each has one set of options, and no two options have the same symbol. -/
structure Mode.Lawful (registered : List Mode) : Prop where
  bare : ∀ m ∈ registered, m.current = none
  unique : ∀ m ∈ registered, ∀ other ∈ registered, m.name = other.name → m = other
  apart : ∀ m ∈ registered, ∀ other ∈ registered, ∀ o ∈ m.options, ∀ o' ∈ other.options,
    m.symbol o = other.symbol o' → m.name = other.name ∧ o = o'

namespace Node

def registered (ns : List Node) : List Mode := (statements ns).filterMap Statement.registers?

/-- Every mode is registered once, and no two options have the same symbol. -/
structure ModesApart (ns : List Node) : Prop where
  once : ((registered ns).map name).Nodup
  apart : ∀ m ∈ registered ns, ∀ other ∈ registered ns, ∀ o ∈ m.options, ∀ o' ∈ other.options,
    m.symbol o = other.symbol o' → m.name = other.name ∧ o = o'

instance (ns : List Node) : Decidable (ModesApart ns) :=
  decidable_of_iff (_ ∧ _) ⟨fun h => ⟨h.1, h.2⟩, fun h => ⟨h.once, h.apart⟩⟩

theorem registered_append (ns ms : List Node) : registered (ns ++ ms) = registered ns ++ registered ms := by
  rw [registered, statements_append, filterMap_append]
  rfl

variable {ns : List Node}

theorem ModesApart.lawful (h : ModesApart ns) : Lawful (registered ns) := by
  refine ⟨fun m hm => ?_, fun m hm other hother hname => ?_, h.apart⟩
  · obtain ⟨s, -, hregisters⟩ := mem_filterMap.mp hm
    cases s with
    | setMode name choices =>
      cases hregisters
      rfl
    | _ => cases hregisters
  · exact inj_on_of_nodup_map h.once hm hother hname

end Node

namespace ModeRegistry

def selected (modes : ModeRegistry) (name : String) : Option String := (modes.find? name).bind current

theorem selected_put (m : Mode) (modes : ModeRegistry) :
    (modes.put m).selected = update modes.selected m.name m.current := by
  funext name
  rw [selected, find?_put, update_apply]
  by_cases hname : name = m.name
  · rw [if_pos hname.symm, if_pos hname]
    rfl
  · rw [if_neg (Ne.symm hname), if_neg hname]
    rfl

theorem selected_of_find? {m : Mode} {modes : ModeRegistry} (h : modes.find? m.name = some m) :
    modes.selected m.name = m.current := by
  rw [selected, h]
  rfl

end ModeRegistry

/-! ### Options and symbols -/

namespace Mode

def Exclusive (registered : List Mode) (defined : List String) : Prop :=
  ∀ r ∈ registered, ∀ o ∈ r.options, ∀ o' ∈ r.options, r.symbol o ∈ defined → r.symbol o' ∈ defined → o = o'

/-- Of every mode the actual option is defined, and no other. -/
structure Shows (registered : List Mode) (actual : String → Option String) (defined : List String) :
    Prop where
  options : ∀ r ∈ registered, ∀ o ∈ actual r.name, o ∈ r.options
  symbols : ∀ r ∈ registered, ∀ o ∈ r.options, r.symbol o ∈ defined ↔ actual r.name = some o

variable {registered : List Mode} {actual : String → Option String} {d d' : List String} {r m : Mode}

theorem Shows.exclusive (h : Shows registered actual d) : Exclusive registered d := by
  intro r hr o ho o' ho' hd hd'
  have hsame := ((h.symbols r hr o ho).mp hd).symm.trans ((h.symbols r hr o' ho').mp hd')
  exact some.inj hsame

theorem Shows.start (h : ∀ m ∈ registered, ∀ o ∈ m.options, m.symbol o ∉ d) :
    Shows registered (fun _ => none) d := by
  refine ⟨fun m _ o ho => (not_mem_none o ho).elim, fun m hm o ho => ?_⟩
  exact iff_of_false (h m hm o ho) (not_mem_none o)

theorem Shows.congr (h : Shows registered actual d)
    (hsame : ∀ r ∈ registered, ∀ o ∈ r.options, r.symbol o ∈ d' ↔ r.symbol o ∈ d) :
    Shows registered actual d' :=
  ⟨h.options, fun r hr o ho => (hsame r hr o ho).trans (h.symbols r hr o ho)⟩

theorem Lawful.symbol_inj (h : Lawful registered) (hr : r ∈ registered) (hm : m.bare ∈ registered)
    {o : String} (ho : o ∈ r.options) (hchoice : choice ∈ m.options) :
    r.symbol o = m.symbol choice ↔ r.name = m.name ∧ o = choice := by
  refine ⟨fun hsame => h.apart r hr m.bare hm o ho choice hchoice hsame, ?_⟩
  rintro ⟨hname, rfl⟩
  rw [symbol, symbol, hname]

theorem Lawful.options_eq (h : Lawful registered) (hr : r ∈ registered) (hm : m.bare ∈ registered)
    (hname : r.name = m.name) : r.options = m.options := by
  rw [h.unique r hr m.bare hm hname]
  rfl

section

variable (h : Shows registered actual d) (hlawful : Lawful registered) (hm : m.bare ∈ registered)
include h hlawful hm

theorem Shows.define (hchoice : choice ∈ m.options) (hother : ∀ o, actual m.name = some o → o = choice) :
    Shows registered (update actual m.name (some choice)) (m.symbol choice :: d) := by
  refine ⟨fun r hr o ho => ?_, fun r hr o ho => ?_⟩
  · by_cases hname : r.name = m.name
    · rw [hname, update_self] at ho
      rw [hlawful.options_eq hr hm hname, ← some.inj ho]
      exact hchoice
    · rw [update_of_ne hname] at ho
      exact h.options r hr o ho
  · rw [mem_cons, hlawful.symbol_inj hr hm ho hchoice, h.symbols r hr o ho]
    by_cases hname : r.name = m.name
    · rw [hname, update_self, some.injEq, and_iff_right rfl, or_iff_left_of_imp (hother o)]
      exact eq_comm
    · rw [update_of_ne hname, or_iff_right fun hsame => hname hsame.1]

theorem Shows.undef {current : String} (hcurrent : current ∈ m.options) :
    Shows registered (update actual m.name ((actual m.name).filter (· != current)))
      (d.filter (· != m.symbol current)) := by
  refine ⟨fun r hr o ho => ?_, fun r hr o ho => ?_⟩
  · by_cases hname : r.name = m.name
    · rw [hname, update_self] at ho
      exact h.options r hr o (hname ▸ (mem_filter_iff.mp ho).1)
    · rw [update_of_ne hname] at ho
      exact h.options r hr o ho
  · rw [mem_filter, h.symbols r hr o ho, bne_iff_ne, ne_eq, hlawful.symbol_inj hr hm ho hcurrent]
    by_cases hname : r.name = m.name
    · rw [hname, update_self, filter_eq_some_iff]
      simp
    · rw [update_of_ne hname, and_iff_left fun hsame => hname hsame.1]

theorem Shows.fallback (hchoice : choice ∈ m.options) :
    ∃ d', Runs (Exclusive registered) d [.ifNone m.symbols, .define (m.symbol choice), .endif] d' ∧
      Shows registered (update actual m.name (some ((actual m.name).getD choice))) d' := by
  have hopening : ∀ branches, Preprocessor.step ⟨d, branches⟩ (.ifNone m.symbols) =
      ⟨d, m.symbols.all (fun name => !d.contains name) :: branches⟩ := fun _ => rfl
  have hsymbol : ∀ o ∈ m.options, m.symbol o ∈ d ↔ actual m.name = some o := h.symbols m.bare hm
  cases hactual : actual m.name with
  | none =>
    have hshows := h.define hlawful hm hchoice (by rw [hactual]; nofun)
    refine ⟨m.symbol choice :: d, ?_, hshows⟩
    refine Runs.conditional hopening h.exclusive (Skips.define _)
      (fun _ => Runs.define h.exclusive hshows.exclusive) fun hholds => ?_
    -- the condition holds, since no option is defined
    obtain ⟨name, hname, hdefined⟩ := List.all_eq_false.mp hholds
    obtain ⟨o, ho, rfl⟩ := List.mem_map.mp hname
    have hsome := (hsymbol o ho).mp (by simpa using hdefined)
    exact absurd (hactual.symm.trans hsome) nofun
  | some current =>
    have hcurrent : current ∈ m.options := h.options m.bare hm current hactual
    refine ⟨d, ?_, ?_⟩
    · refine Runs.conditional hopening h.exclusive (Skips.define _) (fun hholds => ?_) fun _ => rfl
      have hnot := List.all_eq_true.mp hholds (m.symbol current) (List.mem_map.mpr ⟨current, hcurrent, rfl⟩)
      exact absurd ((hsymbol current hcurrent).mpr hactual) (by simpa using hnot)
    · rw [getD_some, ← hactual, update_eq_self]
      exact h

theorem Shows.forget (hcurrent : ∀ o ∈ m.current, o ∈ m.options) :
    ∃ d', Runs (Exclusive registered) d (m.current.toList.map fun o => .undef (m.symbol o)) d' ∧ Shows registered
        (update actual m.name ((actual m.name).filter fun o => m.current != some o)) d' := by
  cases hselected : m.current with
  | none =>
    refine ⟨d, nil h.exclusive, ?_⟩
    have hsame : (actual m.name).filter (fun o => none != some o) = actual m.name := by
      cases actual m.name <;> rfl
    rw [hsame, update_eq_self]
    exact h
  | some current =>
    have hshows := h.undef hlawful hm (hcurrent current hselected)
    refine ⟨d.filter (· != m.symbol current), Runs.undef h.exclusive hshows.exclusive, ?_⟩
    have hsame : (fun o => some current != some o) = fun o => o != current := by
      funext o
      rw [Bool.eq_iff_iff, bne_iff_ne, bne_iff_ne, ne_eq, some.injEq]
      exact ne_comm
    rw [hsame]
    exact hshows

theorem Shows.select (hcurrent : ∀ o ∈ m.current, o ∈ m.options) (hchoice : choice ∈ m.options)
    (hclear : ∀ o, actual m.name = some o → o = choice ∨ m.current = some o) :
    ∃ d', Runs (Exclusive registered) d
        ((m.current.toList.map fun o => .undef (m.symbol o)) ++ [.define (m.symbol choice)]) d' ∧
      Shows registered (update actual m.name (some choice)) d' := by
  obtain ⟨d1, hruns, hshows⟩ := h.forget hlawful hm hcurrent
  have hshows' := hshows.define hlawful hm hchoice fun o ho => by
    rw [update_self, filter_eq_some_iff, bne_iff_ne] at ho
    exact (hclear o ho.1).resolve_right ho.2
  rw [update_idem] at hshows'
  exact ⟨_, hruns.append (Runs.define hshows.exclusive hshows'.exclusive), hshows'⟩

theorem Shows.clash (hcurrent : ∀ o ∈ m.current, o ∈ m.options) {other : String} (hchoice : choice ∈ m.options)
    (hactual : actual m.name = some other) (hother : ¬ (other = choice ∨ m.current = some other)) :
    Breaks (Exclusive registered) d
      ((m.current.toList.map fun o => .undef (m.symbol o)) ++ [.define (m.symbol choice)]) := by
  obtain ⟨d1, hruns, hshows⟩ := h.forget hlawful hm hcurrent
  have hmem : other ∈ m.options := h.options m.bare hm other hactual
  have hdefined : m.symbol other ∈ d1 := by
    refine (hshows.symbols m.bare hm other hmem).mpr ?_
    change update _ m.name _ m.name = _
    rw [update_self, filter_eq_some_iff, bne_iff_ne]
    exact ⟨hactual, fun hrecorded => hother (.inr hrecorded)⟩
  refine (Breaks.define fun hexclusive => hother (.inl ?_)).after hruns
  exact hexclusive m.bare hm other hmem choice hchoice (mem_cons_of_mem _ hdefined) mem_cons_self

end

end Mode

/-! ### Playing and reading -/

namespace Selection

/-- Where lines are not read, playing changes what is recorded, as emission does, and nothing else. -/
def Records (play : Selection → Option Selection) (modes later : ModeRegistry) : Prop :=
  ∀ actual, play ⟨modes.selected, actual⟩ = some ⟨later.selected, actual⟩

/-- Where lines are read, their directives `ds` lead to what playing says, and if playing stops, a second
option is defined on the way. -/
def Reads (registered : List Mode) (play : Selection → Option Selection) (modes later : ModeRegistry)
    (ds : List Directive) : Prop :=
  ∀ actual d, Shows registered actual d →
    (play ⟨modes.selected, actual⟩ = none ∧ Breaks (Exclusive registered) d ds) ∨
    ∃ actual' d', play ⟨modes.selected, actual⟩ = some ⟨later.selected, actual'⟩ ∧
      Runs (Exclusive registered) d ds d' ∧ Shows registered actual' d'

/-- The directives `ds` of some nodes and the modes after them are what playing says. -/
structure Plays (registered : List Mode) (play : Bool → Selection → Option Selection)
    (modes later : ModeRegistry) (ds : List Directive) : Prop where
  within : later.Within registered
  skips : Skips ds
  unread : Records (play false) modes later
  read : Reads registered (play true) modes later ds

variable {registered : List Mode} {modes middle later : ModeRegistry} {ds es : List Directive}

theorem Records.andThen {play play' : Selection → Option Selection} (h : Records play modes middle)
    (h' : Records play' middle later) : Records (fun σ => (play σ).bind play') modes later := by
  intro actual
  dsimp only
  rw [h actual]
  exact h' actual

theorem Reads.andThen {play play' : Selection → Option Selection} (h : Reads registered play modes middle ds)
    (h' : Reads registered play' middle later es) :
    Reads registered (fun σ => (play σ).bind play') modes later (ds ++ es) := by
  intro actual d hshows
  dsimp only
  rcases h actual d hshows with ⟨hplay, hbreaks⟩ | ⟨actual1, d1, hplay, hruns, hshows1⟩
  · exact .inl ⟨by rw [hplay]; rfl, hbreaks.append es⟩
  · rw [hplay, bind_some]
    rcases h' actual1 d1 hshows1 with ⟨hplay', hbreaks⟩ | ⟨actual2, d2, hplay', hruns', hshows2⟩
    · exact .inl ⟨hplay', hbreaks.after hruns⟩
    · exact .inr ⟨actual2, d2, hplay', hruns.append hruns', hshows2⟩

theorem Records.reads {play : Selection → Option Selection} (h : Records play modes later) :
    Reads registered play modes later [] := fun actual d hshows =>
  .inr ⟨actual, d, h actual, nil hshows.exclusive, hshows⟩

namespace Plays

variable {play inner : Bool → Selection → Option Selection} {m : Mode}

theorem andThen {play' : Bool → Selection → Option Selection} (h : Plays registered play modes middle ds)
    (h' : Plays registered play' middle later es) :
    Plays registered (fun live σ => (play live σ).bind (play' live)) modes later (ds ++ es) :=
  ⟨h'.within, h.skips.append h'.skips, h.unread.andThen h'.unread, h.read.andThen h'.read⟩

theorem still (hwithin : modes.Within registered) (hplay : ∀ live σ, play live σ = some σ) :
    Plays registered play modes modes [] := by
  have hrecords : ∀ live, Records (play live) modes modes := fun live actual => hplay live _
  exact ⟨hwithin, nil, hrecords false, (hrecords true).reads⟩

theorem constant {name : String} (hwithin : modes.Within registered) (hplay : ∀ live σ, play live σ = some σ)
    (hname : ∀ m ∈ registered, name ∉ m.symbols) :
    Plays registered play modes modes [.define name] := by
  refine ⟨hwithin, define name, fun actual => hplay false _, fun actual d hshows => .inr ?_⟩
  have hshows' : Shows registered actual (name :: d) := by
    refine hshows.congr fun r hr o ho => ?_
    rw [mem_cons, or_iff_right]
    rintro rfl
    exact hname r hr (List.mem_map.mpr ⟨o, ho, rfl⟩)
  exact ⟨actual, name :: d, hplay true _, define hshows.exclusive hshows'.exclusive, hshows'⟩

section

variable (hlawful : Lawful registered)
include hlawful

theorem registers (hwithin : modes.Within registered)
    (hm : m ∈ registered) (hplay : ∀ live σ, play live σ = some (σ.register m.name)) :
    Plays registered play modes (modes.put m) [] := by
  have hcurrent := hlawful.bare m hm
  have hrecords : ∀ live, Records (play live) modes (modes.put m) := by
    intro live actual
    rw [hplay, selected_put, hcurrent]
    rfl
  refine ⟨hwithin.put ?_ (by simp [hcurrent]), nil, hrecords false, (hrecords true).reads⟩
  have hbare : m.bare = m := by rw [bare, ← hcurrent]
  exact hbare ▸ hm

theorem defaults (hwithin : modes.Within registered)
    (hfound : modes.find? m.name = some m) (hchoice : choice ∈ m.options)
    (hlater : later = if m.current.isSome then modes else modes.put { m with current := some choice })
    (hplay : ∀ live σ, play live σ = some (σ.fallback live m.name choice)) :
    Plays registered play modes later [.ifNone m.symbols, .define (m.symbol choice), .endif] := by
  obtain ⟨hm, -⟩ := hwithin m (mem_of_find? hfound).1
  have hselected := selected_of_find? hfound
  have hrecorded : later.selected =
      update modes.selected m.name (some ((modes.selected m.name).getD choice)) := by
    cases hcurrent : m.current with
    | none =>
      rw [hcurrent] at hselected hlater
      rw [hlater, hselected]
      exact selected_put _ _
    | some current =>
      rw [hcurrent] at hselected hlater
      have hsame : later = modes := hlater
      rw [hsame, hselected, getD_some, ← hselected, update_eq_self]
  refine ⟨?_, (Skips.define _).conditional fun d branches => ⟨_, rfl⟩, fun actual => ?_,
    fun actual d hshows => .inr ?_⟩
  · rw [hlater]
    split_ifs
    · exact hwithin
    · exact hwithin.put hm fun o ho => some.inj ho ▸ hchoice
  · rw [hplay, hrecorded]
    rfl
  · obtain ⟨d', hruns, hshows'⟩ := hshows.fallback hlawful hm hchoice
    exact ⟨_, d', by rw [hplay, hrecorded]; rfl, hruns, hshows'⟩

theorem defines (hwithin : modes.Within registered)
    (hfound : modes.find? m.name = some m) (hchoice : choice ∈ m.options)
    (hplay : ∀ live σ, play live σ = σ.select? live m.name choice) :
    Plays registered play modes (modes.put { m with current := some choice })
      ((m.current.toList.map fun o => .undef (m.symbol o)) ++ [.define (m.symbol choice)]) := by
  obtain ⟨hm, hcurrent⟩ := hwithin m (mem_of_find? hfound).1
  have hselected := selected_of_find? hfound
  have hrecorded : (modes.put { m with current := some choice }).selected =
      update modes.selected m.name (some choice) := selected_put _ _
  refine ⟨hwithin.put hm fun o ho => some.inj ho ▸ hchoice, ?_, fun actual => ?_, fun actual d hshows => ?_⟩
  · refine append ?_ (define _)
    cases m.current with
    | none => exact nil
    | some current => exact undef (m.symbol current)
  · rw [hplay, hrecorded]
    rfl
  · rw [hplay, hrecorded]
    have hselect : select? true m.name choice ⟨modes.selected, actual⟩ =
        if actual m.name = none ∨ actual m.name = some choice ∨ actual m.name = m.current then
          some ⟨update modes.selected m.name (some choice), update actual m.name (some choice)⟩
        else none := by
      rw [← hselected]
      rfl
    rw [hselect]
    split_ifs with hclear
    · obtain ⟨d', hruns, hshows'⟩ := hshows.select hlawful hm hcurrent hchoice fun o ho => by
        rw [ho, some.injEq] at hclear
        rcases hclear with hnone | hsame | hsame
        · cases hnone
        · exact .inl hsame
        · exact .inr hsame.symm
      exact .inr ⟨_, d', rfl, hruns, hshows'⟩
    · rw [not_or, not_or] at hclear
      obtain ⟨o, hactual⟩ := ne_none_iff_exists'.mp hclear.1
      rw [hactual, some.injEq] at hclear
      refine .inl ⟨rfl, hshows.clash hlawful hm hcurrent hchoice hactual ?_⟩
      exact not_or.mpr ⟨hclear.2.1, fun hsame => hclear.2.2 hsame.symm⟩

end

theorem option {how : Option String} (h : Plays registered inner modes later ds)
    (hwithin : modes.Within registered) (hhow : how = some m.name) (hfound : modes.find? m.name = some m)
    (hchoice : choice ∈ m.options)
    (hplay : ∀ live σ, play live σ = inner (live && how.bind σ.actual == some choice) σ) :
    Plays registered play modes later (.ifdef (m.symbol choice) :: (ds ++ [.endif])) := by
  obtain ⟨hm, -⟩ := hwithin m (mem_of_find? hfound).1
  subst hhow
  refine ⟨h.within, h.skips.conditional fun d branches => ⟨_, rfl⟩, fun actual => ?_, fun actual d hshows => ?_⟩
  · rw [hplay, Bool.false_and]
    exact h.unread actual
  · have hopening : ∀ branches, Preprocessor.step ⟨d, branches⟩ (.ifdef (m.symbol choice)) =
        ⟨d, d.contains (m.symbol choice) :: branches⟩ := fun _ => rfl
    have hdefined : d.contains (m.symbol choice) = (actual m.name == some choice) := by
      rw [Bool.eq_iff_iff, contains_iff_mem, beq_iff_eq]
      exact hshows.symbols m.bare hm choice hchoice
    have hplayed : play true ⟨modes.selected, actual⟩ =
        inner (d.contains (m.symbol choice)) ⟨modes.selected, actual⟩ := by
      rw [hplay, Bool.true_and, hdefined]
      rfl
    rw [hplayed]
    cases hholds : d.contains (m.symbol choice) with
    | true =>
      rw [hholds] at hopening
      rcases h.read actual d hshows with ⟨hinner, hbreaks⟩ | ⟨actual', d', hinner, hruns, hshows'⟩
      · exact .inl ⟨hinner, Breaks.conditional hopening hbreaks⟩
      · refine .inr ⟨actual', d', hinner, ?_, hshows'⟩
        exact conditional hopening hshows.exclusive h.skips (fun _ => hruns) nofun
    | false =>
      rw [hholds] at hopening
      refine .inr ⟨actual, d, h.unread actual, ?_, hshows⟩
      exact conditional hopening hshows.exclusive h.skips nofun fun _ => rfl

end Plays

end Selection

/-- What a statement has to be for its lines to be played: its mode is a registered one, and its variable is
no option of a mode. -/
structure Statement.Fits (registered : List Mode) (s : Statement) : Prop where
  known : ∀ m ∈ s.registers?, m ∈ registered
  constant : ∀ name ∈ s.assigned?, ∀ m ∈ registered, name ∉ m.symbols

section

variable {m : Mode} (hnamed : m.Named) (hchoice : choice ∈ m.options)
include hnamed hchoice

theorem Mode.Named.directive?_define :
    CLine.directive? ("#define " ++ m.symbol choice) = some (.define (m.symbol choice)) := by
  rw [← String.append_empty (s := "#define " ++ m.symbol choice)]
  exact CLine.directive?_define (hnamed.symbol hchoice) (by simp)

theorem Mode.Named.directives_fallback :
    Piece.allDirectives [.fallback (CLine.absence m.symbols) (m.symbol choice)] =
      [.ifNone m.symbols, .define (m.symbol choice), .endif] := by
  have hif := @CLine.directive?_if m.symbols (ne_nil_of_mem (List.mem_map_of_mem hchoice))
    (List.forall_mem_map.mpr fun o ho => hnamed.symbol ho)
  have hshift : "  #define " ++ m.symbol choice = shift 2 ("#define " ++ m.symbol choice) := by
    simp [← String.toList_inj, shift, blanks]
  have hdefine : CLine.directive? ("  #define " ++ m.symbol choice) = some (.define (m.symbol choice)) := by
    rw [hshift, CLine.directive?_shift, hnamed.directive?_define hchoice]
  simp [Piece.allDirectives, Piece.contents, Piece.allReading, Piece.reading, hif, hdefine, CLine.directive?_endif]

theorem Mode.Named.directives_selection (hcurrent : ∀ o ∈ m.current, Text.IsWord (m.symbol o)) :
    Piece.allDirectives ((m.current.toList.map fun current => .line ("#undef " ++ m.symbol current)) ++
        [.line ("#define " ++ m.symbol choice)]) =
      (m.current.toList.map fun o => .undef (m.symbol o)) ++ [.define (m.symbol choice)] := by
  rw [Piece.allDirectives_append, Piece.allDirectives_line, hnamed.directive?_define hchoice]
  cases hselected : m.current with
  | none => rfl
  | some current =>
    have hundef := CLine.directive?_undef (hcurrent current hselected)
    simp [Piece.allDirectives_line, hundef]

end

namespace Printer

variable {options : Options} {registered : List Mode} {past : List Passed} {parent : List Nat} {index : Nat}
  {ns : List Node}

theorem Says.modes_walk (hn : Stands past parent index how n c) (hwording : Says options c n pieces) :
    Passed.modes ((n.walk (index :: parent)).reverse ++ past) = n.statement.modesAfter (Passed.modes past) := by
  have hbody : n.statement.opensBlock = false → n.body = [] := by
    obtain ⟨s, place, body⟩ := n
    exact hn.sane.trim.1.1
  obtain ⟨s, place, body⟩ := n
  cases hwording with
  | remarks hremark _ =>
    have hclosed : s.opensBlock = false := by cases s <;> first | rfl | cases hremark
    obtain rfl : body = [] := hbody hclosed
    rfl
  | named | array =>
    obtain rfl := hn.sane.trim.1.2.1.1 rfl
    rfl
  | _ =>
    obtain rfl : body = [] := hbody rfl
    rfl

theorem Heads.plays {opening : String} {s : Statement} (h : Heads c s opening) :
    s.inside? = some none ∧ (∀ modes, s.modesAfter modes = modes) ∧
      CLine.directive? (opening ++ " \x7b") = none := by
  refine ⟨by cases h <;> rfl, fun _ => by cases h <;> rfl, CLine.directive?_of_startsWord ?_⟩
  apply Text.startsWord_append
  cases h with
  | otherwise => rfl
  | _ =>
    simp only [String.append_assoc]
    exact Text.startsWord_append rfl _

theorem plays_inside {s : Statement} (place : Option Location) {body : List Node} {ds : List Directive}
    (mode : Option String) {inner : Option String} (hinside : s.inside? = some inner)
    (hmodes : ∀ modes, s.modesAfter modes = modes)
    (h : (Passed.modes (⟨index :: parent, s⟩ :: past)).Within registered →
      Selection.Plays registered (fun live => playAll live inner body) (Passed.modes (⟨index :: parent, s⟩ :: past))
        (Passed.modes ((walkAll (index :: parent) 0 body).reverse ++ ⟨index :: parent, s⟩ :: past)) ds)
    (hwithin : (Passed.modes past).Within registered) :
    Selection.Plays registered (fun live => (mk s place body).play live mode) (Passed.modes past)
      (Passed.modes (((mk s place body).walk (index :: parent)).reverse ++ past)) ds := by
  have hpast : Passed.modes (⟨index :: parent, s⟩ :: past) = Passed.modes past := hmodes _
  have hplay : (fun live => (mk s place body).play live mode) = fun live => playAll live inner body := by
    funext live σ
    exact play_inside hinside σ
  rw [hpast] at h
  rw [hplay, reverse_walk]
  exact h hwithin

theorem plays_cons {mode : Option String} {ds es : List Directive}
    (hfirst : Selection.Plays registered (fun live => n.play live mode) (Passed.modes past)
      (Passed.modes ((n.walk (index :: parent)).reverse ++ past)) ds)
    (hrest : (Passed.modes ((n.walk (index :: parent)).reverse ++ past)).Within registered →
      Selection.Plays registered (fun live => playAll live mode ns)
        (Passed.modes ((n.walk (index :: parent)).reverse ++ past))
        (Passed.modes ((walkAll parent (index + 1) ns).reverse ++
          ((n.walk (index :: parent)).reverse ++ past))) es) :
    Selection.Plays registered (fun live => playAll live mode (n :: ns)) (Passed.modes past)
      (Passed.modes ((walkAll parent index (n :: ns)).reverse ++ past)) (ds ++ es) := by
  rw [walkAll, reverse_append, List.append_assoc]
  exact hfirst.andThen (hrest hfirst.within)

section

variable (hlawful : Lawful registered)
include hlawful

theorem Says.plays (hn : Stands past parent index how n c) (hfits : n.statement.Fits registered)
    (hwithin : c.modes.Within registered) (mode : Option String) (hwording : Says options c n pieces) :
    Selection.Plays registered (fun live => n.play live mode) c.modes (n.statement.modesAfter c.modes)
      (Piece.allDirectives pieces) := by
  have hs := hn.named_own
  have hstill : ∀ {line : String}, Text.startsWord line = true →
      (∀ live σ, n.play live mode σ = some σ) → n.statement.modesAfter c.modes = c.modes →
      Selection.Plays registered (fun live => n.play live mode) c.modes (n.statement.modesAfter c.modes)
        (Piece.allDirectives [.line line]) := by
    intro line hline hplay hmodes
    rw [Piece.allDirectives_line, CLine.directive?_of_startsWord hline, hmodes]
    exact .still hwithin hplay
  cases hwording with
  | remarks hremark hpieces =>
    have hnone : Piece.allDirectives pieces = [] := by
      refine filterMap_eq_nil_iff.mpr (Piece.contents_of_lines fun p hp => ?_)
      obtain ⟨line, rfl, -, hline, -⟩ := hpieces p hp
      exact ⟨line, rfl, CLine.directive?_of_comment hline⟩
    rw [hnone]
    obtain ⟨s, place, body⟩ := n
    cases s with
    | comment _ | pass => exact .still hwithin fun live σ => rfl
    | setMode name choices =>
      exact .registers hlawful hwithin (hfits.known ⟨name, choices, none⟩ rfl) fun live σ => rfl
    | _ => cases hremark
  | @declares _ _ _ type _ _ _ htype =>
    obtain ⟨hword, hdimensions⟩ := TypeTable.forall_resolve (P := Text.IsType) hn.told.types (by rw [htype]; rfl)
    refine hstill ?_ (fun live σ => rfl) rfl
    rw [CType.text_of_plain hdimensions, String.append_assoc, String.append_assoc]
    exact Text.startsWord_append hword.word.startsWord _
  | assigns =>
    refine hstill ?_ (fun live σ => rfl) rfl
    simp only [String.append_assoc]
    exact Text.startsWord_append hs.word.startsWord _
  | @fixes name expression b _ _ _ _ =>
    have hdefine : CLine.directive? ("#define " ++ name ++ (" ((" ++ b.type.text ++ ") " ++
        Expression.render expression ++ ")")) = some (.define name) :=
      CLine.directive?_define hs.word (by simp; decide)
    simp only [← String.append_assoc] at hdefine
    rw [Piece.allDirectives_line, hdefine]
    exact .constant hwithin (fun live σ => rfl) (hfits.constant name rfl)
  | calls =>
    refine hstill ?_ (fun live σ => rfl) rfl
    simp only [String.append_assoc]
    exact Text.startsWord_append (Text.IsWord.startsWord hs) _
  | returns =>
    refine hstill ?_ (fun live σ => rfl) rfl
    split_ifs
    · decide
    · simp only [String.append_assoc]
      exact Text.startsWord_append rfl _
  | named | array =>
    refine hstill ?_ (fun live σ => rfl) rfl
    simp only [String.append_assoc]
    exact Text.startsWord_append rfl _
  | @defaults _ choice m _ _ hvalid =>
    obtain ⟨rfl, hfound, hchoice, hnamed, -⟩ := hn.symbols hvalid
    rw [← hn.told.modes] at hfound
    change Selection.Plays _ _ _ _ (Piece.allDirectives [.fallback (CLine.absence m.symbols) (m.symbol choice)])
    rw [hnamed.directives_fallback hchoice]
    refine .defaults hlawful hwithin hfound hchoice ?_ fun live σ => rfl
    simp [Node.statement, Statement.modesAfter, hfound]
  | @selects _ choice m _ _ hvalid =>
    obtain ⟨rfl, hfound, hchoice, hnamed, hcurrent⟩ := hn.symbols hvalid
    rw [← hn.told.modes] at hfound
    have hmodes : (Statement.defineMode m.name choice).modesAfter c.modes =
        c.modes.put { m with current := some choice } := by
      simp [Statement.modesAfter, hfound]
    rw [hnamed.directives_selection hchoice hcurrent, Node.statement, hmodes]
    exact .defines hlawful hwithin hfound hchoice fun live σ => rfl

/-- The lines of a block do to the preprocessor what playing the block says. -/
theorem Prints.plays (hprints : Prints options past parent index how ns pieces)
    (hfits : ∀ s ∈ statements ns, s.Fits registered) (hwithin : (Passed.modes past).Within registered) :
    Selection.Plays registered (fun live => playAll live (how.map name) ns) (Passed.modes past)
      (Passed.modes ((walkAll parent index ns).reverse ++ past)) (Piece.allDirectives pieces) := by
  induction hprints with
  | nil => exact .still hwithin fun live σ => rfl
  | @leaf _ _ _ how n _ _ _ _ hn hwording _ ih =>
    obtain ⟨s, place, body⟩ := n
    obtain ⟨hs, -, hrest⟩ := forall_statements_cons.mp hfits
    have hfirst := hwording.plays hlawful hn hs (hn.told.modes ▸ hwithin) (how.map name)
    rw [hn.told.modes, ← hwording.modes_walk hn] at hfirst
    rw [Piece.allDirectives_append]
    exact plays_cons hfirst (ih hrest)
  | @block _ _ _ how _ n _ _ _ _ _ hn hwraps _ _ _ ihinner ih =>
    obtain ⟨s, place, body⟩ := n
    obtain ⟨-, hbody, hrest⟩ := forall_statements_cons.mp hfits
    rw [Piece.allDirectives_append]
    refine plays_cons ?_ (ih hrest)
    cases hwraps with
    | braces hhead =>
      obtain ⟨hinside, hmodes, hline⟩ := hhead.plays
      rw [Piece.allDirectives_braces hline]
      exact plays_inside place _ hinside hmodes (ihinner hbody) hwithin
    | choose hmode =>
      have hinside := congrArg (fun name => some (some name)) (name_of_get hmode).symm
      exact plays_inside place _ hinside (fun _ => rfl) (ihinner hbody) hwithin
    | @option mode found choice _ hhow hvalid =>
      subst hhow
      obtain ⟨hname, hfound, hchoice, hnamed, -⟩ := hn.symbols hvalid
      have hsymbol : mode.symbol choice = found.symbol choice := by rw [symbol, symbol, hname]
      rw [hsymbol, Piece.allDirectives_option (hnamed.symbol hchoice), reverse_walk]
      exact (ihinner hbody hwithin).option hwithin (congrArg some hname.symm) hfound hchoice fun live σ => rfl

end

end Printer

end CirOutline
