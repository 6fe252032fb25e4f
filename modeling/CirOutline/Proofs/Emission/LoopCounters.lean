import CirOutline.Proofs.Emission.Foretold

/-!
Loop counters follow the nesting of loops with a count. Inside so many loops, so many counters are in
use, and they are the first ones: so the counter of a loop is told by the loops around it alone, and a
pool is exhausted exactly where the loops are nested too deep for it.
-/

namespace CirOutline

open List Passed Node TemporaryPool

variable {count : List Token} {n : Node} {ns : List Node} {place : Option Location} {how : Option Mode}
  {v : Visit}

namespace TemporaryPool

def firstNames (depth : Nat) : List String := (List.range depth).map name

variable {pool pool' : TemporaryPool} {depth : Nat}

theorem Holds.sameUse (h : pool.Holds depth) (hsame : SameUse pool pool') : pool'.Holds depth :=
  ⟨hsame.1.le.trans h.capacity, fun index => (hsame.2 index).trans (h.uses index)⟩

theorem inUse_eq (pool : TemporaryPool) :
    pool.inUse = ((List.range pool.slots.length).filter pool.uses).map name := by
  have hslots : ∀ (slots : List Bool) (first : Nat), (slots.zipIdx first).filterMap
      (fun slot => if slot.1 then some (name slot.2) else none) =
      ((List.range' first slots.length).filter fun index => slots.getD (index - first) false).map name := by
    intro slots
    induction slots with
    | nil => exact fun _ => rfl
    | cons used slots ih =>
      intro first
      have hrest : (List.range' (first + 1) slots.length).filter
          (fun index => (used :: slots).getD (index - first) false) =
          (List.range' (first + 1) slots.length).filter
            fun index => slots.getD (index - (first + 1)) false := by
        apply filter_congr
        intro index hindex
        rw [mem_range'_1] at hindex
        rw [show index - first = index - (first + 1) + 1 by omega, getD_cons_succ]
      rw [zipIdx_cons, filterMap_cons, ih, length_cons, List.range'_succ,
        filter_cons, Nat.sub_self, getD_cons_zero, hrest]
      cases used <;> rfl
  rw [inUse, hslots pool.slots 0, range_eq_range']
  rfl

theorem Holds.inUse_eq (h : pool.Holds depth) : pool.inUse = firstNames depth := by
  have hlength : depth ≤ pool.slots.length := by
    by_contra hshort
    have hused : pool.uses pool.slots.length = true := by
      rw [h.uses, decide_eq_true_eq]
      omega
    exact Nat.lt_irrefl _ (lt_of_uses hused)
  have hfilter : (List.range pool.slots.length).filter pool.uses = List.range depth := by
    obtain ⟨free, hfree⟩ := Nat.exists_eq_add_of_le hlength
    rw [hfree, range_add, filter_append, filter_eq_self.mpr, filter_eq_nil_iff.mpr, append_nil]
    · intro index hindex
      obtain ⟨later, -, rfl⟩ := mem_map.mp hindex
      rw [h.uses, decide_eq_true_eq]
      omega
    · intro index hindex
      rw [h.uses, decide_eq_true_eq]
      exact mem_range.mp hindex
  rw [TemporaryPool.inUse_eq, hfilter, firstNames]

theorem Holds.acquire?_eq_none (h : pool.Holds depth) : pool.acquire? = none ↔ pool.capacity ≤ depth := by
  constructor
  · intro hnone
    unfold acquire? at hnone
    split at hnone
    · cases hnone
    · next hfull =>
      split_ifs at hnone with hroom
      have hlength : pool.slots.length = pool.capacity := by
        have := pool.fits
        omega
      by_contra hdeep
      have hslot : depth < pool.slots.length := by omega
      have hused : pool.slots[depth] = true := by
        simpa using findIdx?_eq_none_iff.mp hfull pool.slots[depth] (getElem_mem hslot)
      have hfree : pool.slots[depth] = false := by
        simpa [TemporaryPool.uses, getD_eq_getElem?_getD, hslot] using h.uses depth
      rw [hfree] at hused
      cases hused
  · intro hdeep
    cases htaken : pool.acquire? with
    | none => rfl
    | some taken =>
      obtain ⟨index, -, hindex, hfree, -⟩ := acquire?_spec htaken
      rw [h.uses, decide_eq_false_iff_not] at hfree
      omega

end TemporaryPool

namespace Emission

variable {options : Options} {past : List Passed} {parent : List Nat} {index : Nat} {e e' : Emitter}

/-- At a position of a block the counters of the loops around it are in use, and nothing has been
passed from the position on. -/
structure Counted (past : List Passed) (parent : List Nat) (index : Nat) (e : Emitter) : Prop where
  pool : e.context.pool.Holds (repeats past parent)
  fresh : Fresh past parent index

namespace Counted

theorem next (h : Counted past parent index e)
    (hrun : visit options how n (fun how' => block options how' n.body) e = .ok () e') :
    Counted ((n.walk (index :: parent)).reverse ++ past) parent (index + 1) e' := by
  refine ⟨?_, h.fresh.next n⟩
  have hnews : ∀ f ∈ (n.walk (index :: parent)).reverse, ∃ j, (j :: parent) <:+ f.path := fun f hf =>
    ⟨index, suffix_of_mem_walk (mem_reverse.mp hf)⟩
  rw [repeats_append past hnews]
  exact h.pool.sameUse (visit_keeps h.pool.capacity hrun)

theorem inside (h : Counted past parent index e) {inside : Emitter} (hentered : Entered n e how inside) :
    Counted (⟨index :: parent, n.statement⟩ :: past) (index :: parent) 0 inside := by
  refine ⟨?_, h.fresh.inside n.statement⟩
  rw [repeats_entering h.fresh]
  have htaken := hentered.taken
  cases hrepeat : n.statement.isRepeat with
  | true =>
    rw [hrepeat, if_pos rfl] at htaken
    obtain ⟨counter, htaken⟩ := htaken
    exact (h.pool.acquire htaken).2
  | false =>
    rw [hrepeat] at htaken
    exact htaken ▸ h.pool

end Counted

section

variable (h : Reached options how e past parent index ns v)
include h

theorem Reached.counted (hcounted : Counted past parent index e) : Counted v.past v.parent v.index v.emitter := by
  induction h with
  | here => exact hcounted
  | next hpassed _ ih => exact ih (hcounted.next hpassed)
  | @inside how how' e inside past parent index n ns v henters _ ih =>
    exact ih (hcounted.inside ((visit_opens options how n hcounted.pool.capacity).before henters))

theorem Reached.capacity (he : e.context.pool.capacity ≤ capacityBound) :
    v.emitter.context.pool.capacity = e.context.pool.capacity := by
  induction h with
  | here => rfl
  | next hpassed _ ih =>
    have hsame := (visit_keeps he hpassed).1
    exact (ih (hsame.le.trans he)).trans hsame
  | @inside how how' e inside past parent index n ns v henters _ ih =>
    have hsame := ((visit_opens options how n he).before henters).capacity
    exact (ih (hsame.le.trans he)).trans hsame

end

/-! ### Visits -/

/-- What the emission of a node does with counters when so many are in use: it keeps them before its
block, after it and when it stops. A loop with a count takes the next one for its block, or stops
since there is none. -/
structure Visit.Counts (options : Options) (v : Visit) (depth : Nat) : Prop where
  before : v.emitter.context.pool.inUse = firstNames depth
  after : Ends (v.run options) v.emitter
    (fun _ e' => e'.context.pool.inUse = firstNames depth)
    fun _ e' => e'.context.pool.inUse = firstNames depth
  inside : ∀ how inside, Enters (visit options v.how v.node) v.emitter how inside →
    inside.context.pool.inUse =
      firstNames (depth + if v.node.statement.isRepeat then 1 else 0)
  opening : ∀ count, v.node.statement = .repeatLoop count → ∀ how inside,
    Enters (visit options v.how v.node) v.emitter how inside →
    inside.written v.emitter.stream = v.emitter.written v.emitter.stream ++
      [shift (options.indentWidth * v.emitter.groups) (repeatOpening (name depth) count)]
  full : ∀ count, v.node.statement = .repeatLoop count → v.emitter.inMethod = true →
    options.poolSize ≤ depth → ∃ e', v.run options v.emitter =
      .error (.diagnosed ⟨.poolExhausted options.poolSize, v.node.location, none⟩) e'

theorem repeat_opening {how how' : Option Mode} {body : List Node} {inside : Emitter} {depth : Nat}
    (hpool : e.context.pool.Holds depth)
    (henters : Enters (visit options how (.mk (.repeatLoop count) place body)) e how' inside) :
    inside.written e.stream = e.written e.stream ++
      [shift (options.indentWidth * e.groups) (repeatOpening (name depth) count)] := by
  have hsame : Enters (fun inner => note .debug ("Generating " ++
      (Node.mk (.repeatLoop count) place body).tag) >>= fun _ =>
      repeatLoop options count place (inner none)) e how' inside := by
    cases how <;> exact henters
  obtain ⟨entries, -, -, -, counter, htaken, hline⟩ := inside_of_noted (fun entries => repeatLoop_opens
    (e := Emitter.note entries e) (fun _ _ => trivial) hpool.capacity count place none fun _ => trivial) hsame
  rwa [written_note, (hpool.acquire htaken).1] at hline

theorem repeat_full {body : List Node} (inner : Option Mode → Emission Unit) (hinside : e.inMethod = true)
    (hnone : e.context.pool.acquire? = none) :
    ∃ e', visit options how (.mk (.repeatLoop count) place body) inner e =
      .error (.diagnosed ⟨.poolExhausted e.context.pool.capacity, place, none⟩) e' := by
  have hnoted : ∀ e1 : Emitter, e1.inMethod = true → e1.context.pool = e.context.pool →
      repeatLoop options count place (inner none) e1 =
        .error (.diagnosed ⟨.poolExhausted e.context.pool.capacity, place, none⟩) e1 := by
    intro e1 hinside1 hpool1
    have hrequired : requireMethod "use REPEAT" place e1 = .ok () e1 := by
      rw [requireMethod, get_bind, if_pos hinside1]
      rfl
    rw [repeatLoop, bind_of_ok hrequired, withCounter_none (by rw [hpool1]; exact hnone), hpool1]
    rfl
  cases how with
  | none | some mode => exact ⟨_, hnoted (Emitter.note _ e) hinside rfl⟩

theorem Visit.counts (h : Counted v.past v.parent v.index v.emitter)
    (hcapacity : (v.emitter.context.pool.capacity : Int) = options.poolSize) :
    v.Counts options (repeats v.past v.parent) := by
  obtain ⟨past, parent, index, how, n, e⟩ := v
  have hpool : e.context.pool.Holds (repeats past parent) := h.pool
  refine ⟨hpool.inUse_eq, ?_, fun how' inside henters => ?_, ?_, ?_⟩
  · have hkept := visit_steady options how n (block_steady options n.body) e hpool.capacity
    exact hkept.mono (fun _ _ hsame => (hpool.sameUse hsame).inUse_eq)
      fun _ _ hsame => (hpool.sameUse hsame).inUse_eq
  · have hentered := (visit_opens options how n hpool.capacity).before henters
    have hinside := (h.inside hentered).pool
    rw [repeats_entering h.fresh] at hinside
    exact hinside.inUse_eq
  · obtain ⟨s, place, body⟩ := n
    rintro count rfl how' inside henters
    exact repeat_opening hpool henters
  · obtain ⟨s, place, body⟩ := n
    rintro count rfl hinside hfull
    rw [← hcapacity] at hfull ⊢
    exact repeat_full _ hinside (hpool.acquire?_eq_none.mpr (Int.ofNat_le.mp hfull))

/-! ### Depth -/

/-- A loop with a count has fewer than so many such loops around it. -/
def Passed.Shallow (capacity : Nat) (x : List Passed × Passed) : Prop :=
  x.2.statement.isRepeat = true → repeats x.1 x.2.path.tail < capacity

theorem block_shallow (ns : List Node) (htrim : AllTrim ns) (h : Counted past parent index e)
    (hrun : block options how ns e = .ok () e') :
    ∀ x ∈ steps past (walkAll parent index ns), Passed.Shallow e.context.pool.capacity x := by
  intro x hx hrepeat
  obtain ⟨count, hs⟩ : ∃ count, x.2.statement = .repeatLoop count := by
    cases hs : x.2.statement with
    | repeatLoop count => exact ⟨count, rfl⟩
    | _ =>
      rw [hs] at hrepeat
      cases hrepeat
  rcases block_visited ns htrim h.pool.capacity hrun x hx with ⟨-, hfield⟩ | ⟨v, hv, rfl⟩
  · rw [hs] at hfield
    cases hfield
  · have hs : v.node.statement = .repeatLoop count := hs
    have hpool := (hv.counted h).pool
    obtain ⟨e2, hvisit⟩ := hv.ok h.pool.capacity hrun
    rcases visit_enters hpool.capacity hvisit with hsettled | ⟨_, _, _, -, hentered, -, -⟩
    · have hclosed := hsettled.closed
      rw [hs] at hclosed
      rcases hclosed with hclosed | ⟨_, _, hname, -⟩
      · cases hclosed
      · cases hname
    · have htaken := hentered.taken
      rw [hs, show Statement.isRepeat (.repeatLoop count) = true from rfl, if_pos rfl] at htaken
      obtain ⟨counter, htaken⟩ := htaken
      by_contra hdeep
      rw [← hv.capacity h.pool.capacity] at hdeep
      rw [hpool.acquire?_eq_none.mpr (Nat.le_of_not_lt hdeep)] at htaken
      cases htaken

end Emission

theorem Options.capacity_emitter {options : Options} {lines : List String} {start : Emitter}
    (h : options.emitter lines = .ok start) :
    (start.context.pool.capacity : Int) = options.poolSize := by
  unfold Options.emitter create at h
  split_ifs at h with hpositive
  · cases h
  · cases hcells : Allocation.cells slotSize options.poolSize with
    | error b =>
      rw [hcells] at h
      cases h
    | ok count =>
      rw [hcells] at h
      cases h
      obtain ⟨rfl, -⟩ := Allocation.le_of_cells hcells
      exact Int.toNat_of_nonneg (by omega)

/-- While so many loops with a count are open, the first so many counters are in use, whatever was
emitted before, and a loop takes the next one. No program with a loop that is nested too deep for the
pool is emitted, only such a loop exhausts the pool, and at the end no counter is in use. -/
theorem loop_counters_follow_nesting {options : Options} {lines : List String} {start : Emitter} {forest : List Node}
    (htrim : Node.AllTrim forest) (hstart : options.emitter lines = .ok start) :
    (∀ v, Emission.Reached options none start [] [] 0 forest v →
      v.Counts options (Passed.repeats v.past v.parent)) ∧
    ((∃ x ∈ Passed.steps [] (Node.walkAll [] 0 forest), x.2.statement.isRepeat = true ∧
        options.poolSize ≤ Passed.repeats x.1 x.2.path.tail) →
      ∀ output, (emitProgram start options forest).1 ≠ .ok output) ∧
    (∀ capacity place shown, (emitProgram start options forest).1 =
        .error (.diagnosed ⟨.poolExhausted capacity, place, shown⟩) →
      capacity = options.poolSize ∧ ∃ v, Emission.Reached options none start [] [] 0 forest v ∧
        v.node.location = place ∧ v.node.statement.isRepeat = true ∧
        options.poolSize ≤ Passed.repeats v.past v.parent) ∧
    (emitProgram start options forest).2.context.pool.inUse = [] := by
  obtain ⟨pool, rfl, hsound, hpool⟩ := Options.emitter_start hstart
  have hcapacity : ∀ v, Emission.Reached options none (Emitter.start pool lines) [] [] 0 forest v →
      (v.emitter.context.pool.capacity : Int) = options.poolSize := by
    intro v hv
    rw [hv.capacity hsound.capacity]
    exact Options.capacity_emitter hstart
  have hcounted : Emission.Counted [] [] 0 (Emitter.start pool lines) :=
    ⟨hpool, fun f hf => absurd hf not_mem_nil⟩
  have hends := emitProgram_ends options (Emitter.start pool lines) forest
  have hkept := Emission.block_steady options forest none (Emitter.start pool lines) hsound.capacity
  refine ⟨fun v hv => Emission.Visit.counts (hv.counted hcounted) (hcapacity v hv), ?_, ?_, ?_⟩
  · rintro ⟨x, hx, hrepeat, hdeep⟩ output houtput
    have hrun := emitProgram_block (Prod.ext houtput rfl)
    have hshallow := Emission.block_shallow forest htrim hcounted hrun x hx hrepeat
    rw [← Options.capacity_emitter hstart] at hdeep
    omega
  · intro capacity place shown hstop
    cases hrun : Emission.block options none forest (Emitter.start pool lines) with
    | ok _ e => cases (hends.ok hrun).2 _ hstop
    | error stop e =>
      rw [hends.error hrun] at hstop
      obtain rfl := Except.error.inj hstop
      obtain ⟨v, hv, hblamed⟩ := Emission.exists_reached_of_stop forest [] 0 [] hsound.capacity hrun
      obtain ⟨rfl, hrepeat, rfl, hnone⟩ := hblamed.exhausted capacity place shown rfl
      have hdeep := (hv.counted hcounted).pool.acquire?_eq_none.mp hnone
      have hsize := hcapacity v hv
      exact ⟨hsize, v, hv, rfl, hrepeat, by omega⟩
  · cases hrun : Emission.block options none forest (Emitter.start pool lines) with
    | ok _ e =>
      rw [(hends.ok hrun).1]
      exact (hpool.sameUse (hkept.ok hrun)).inUse_eq
    | error stop e =>
      rw [hends.error hrun]
      exact (hpool.sameUse (hkept.error hrun)).inUse_eq

/-- A loop around two others, of which the second holds one more. -/
def siblingLoops : List Node :=
  let loop (line : Nat) (body : List Node) : Node :=
    .mk (.repeatLoop [⟨.number, "2", ⟨"loops", line, 12⟩⟩]) (some ⟨"loops", line, 5⟩) body
  [.mk (.method "m" [] none) none [loop 2 [loop 3 [.mk .pass none []], loop 4 [loop 5 [.mk .pass none []]]]]]

theorem loop_counters_follow_nesting_of_siblings : ∃ start,
    ({ poolSize := 2 } : Options).emitter = .ok start ∧ Node.AllTrim siblingLoops ∧
    (∃ v, Emission.Reached { poolSize := 2 } none start [] [] 0 siblingLoops v ∧
      v.node.location = some ⟨"loops", 5, 5⟩ ∧ v.node.statement.isRepeat = true ∧
      (2 : Int) ≤ Passed.repeats v.past v.parent ∧
      v.Counts { poolSize := 2 } (Passed.repeats v.past v.parent)) ∧
    (emitProgram start { poolSize := 2 } siblingLoops).2.context.pool.inUse = [] := by
  have hstop : (({ poolSize := 2 } : Options).emitter.toOption.map fun start =>
      (emitProgram start { poolSize := 2 } siblingLoops).1) =
        some (.error (.diagnosed ⟨.poolExhausted 2, some ⟨"loops", 5, 5⟩, none⟩)) := by
    decide +kernel
  obtain ⟨start, hstart, hstop⟩ := Option.map_eq_some_iff.mp hstop
  have hstart := eq_ok_of_toOption hstart
  have htrim : AllTrim siblingLoops := by
    simp [siblingLoops, AllTrim, Trim, Statement.opensBlock]
  obtain ⟨hcounts, -, hexhausted, hend⟩ := loop_counters_follow_nesting htrim hstart
  obtain ⟨-, v, hv, hplace, hrepeat, hdeep⟩ := hexhausted _ _ _ hstop
  exact ⟨start, hstart, htrim, ⟨v, hv, hplace, hrepeat, hdeep, hcounts v hv⟩, hend⟩

end CirOutline
