import CirOutline.TemporaryPool
import Mathlib.Tactic.Common

/-!
Loop counters that were taken can be given back. Two pools are of the same use when the same slots
are in use, however far their lists of slots reach; taking a counter and giving it back leads to a
pool of the same use, whatever was taken and given back in between.
-/

namespace CirOutline

open List

variable {depth index : Nat} {pool pool' : TemporaryPool} {counter : String}

/-! ### Numerals -/

namespace Text.Numeral

theorem decimalValue?_of_isDigit {c : Char} (h : c.isDigit = true) :
    decimalValue? c = some (c.toNat - '0'.toNat) := by
  have hrange : 48 ≤ c.toNat ∧ c.toNat ≤ 57 := by
    simpa [Char.isDigit, UInt32.le_iff_toNat_le] using h
  have hfirst : (decide (0x30 ≤ c.toNat) && decide (c.toNat ≤ 0x30 + 9)) = true := by
    simp only [Bool.and_eq_true, decide_eq_true_eq]
    omega
  -- The digits of the first zero of the table are those of `Char.isDigit`.
  have hfound : (decimalZeros.find? fun base => base ≤ c.toNat && c.toNat ≤ base + 9) = some 0x30 :=
    find?_cons_of_pos (p := fun base => decide (base ≤ c.toNat) && decide (c.toNat ≤ base + 9)) hfirst
  rw [decimalValue?, hfound]
  rfl

theorem digits?_of_isDigit {cs : List Char} {afterDigit : Bool} (hdigits : ∀ c ∈ cs, c.isDigit = true)
    (hcs : cs ≠ [] ∨ afterDigit = true) :
    digits? afterDigit cs = some (cs.map fun c => c.toNat - '0'.toNat) := by
  induction cs generalizing afterDigit with
  | nil =>
    obtain rfl : afterDigit = true := by simpa using hcs
    rfl
  | cons c cs ih =>
    rw [forall_mem_cons] at hdigits
    have hunderscore : (afterDigit && c == '_') = false := by
      rw [Bool.and_eq_false_iff]
      right
      apply beq_eq_false_iff_ne.mpr
      rintro rfl
      exact absurd hdigits.1 (by decide)
    simp only [digits?, hunderscore, Bool.false_eq_true, if_false, decimalValue?_of_isDigit hdigits.1,
      ih hdigits.2 (.inr rfl), Option.map_some, map_cons]

theorem natural?_toDigits (n : Nat) :
    natural? (Nat.toDigits 10 n) = if (Nat.toDigits 10 n).length ≤ digitLimit then some n else none := by
  have hdigits : ∀ c ∈ Nat.toDigits 10 n, c.isDigit = true := fun c hc =>
    Nat.isDigit_of_mem_toDigits (by decide) (by decide) hc
  have hvalue : value ((Nat.toDigits 10 n).map fun c => c.toNat - '0'.toNat) = n := by
    rw [value, foldl_map]
    exact Nat.ofDigitChars_ten_toDigits
  rw [natural?, digits?_of_isDigit hdigits (.inl Nat.toDigits_ne_nil)]
  simp only [length_map, hvalue]

theorem length_of_digits? {cs : List Char} {digits : List Nat} {afterDigit : Bool}
    (h : digits? afterDigit cs = some digits) (hline : '_' ∉ cs) : digits.length = cs.length := by
  induction cs generalizing afterDigit digits with
  | nil =>
    cases afterDigit
    · cases h
    · cases h
      rfl
  | cons c cs ih =>
    rw [mem_cons, not_or] at hline
    have hc : (afterDigit && c == '_') = false := by simp [Ne.symm hline.1]
    rw [digits?, hc, if_neg Bool.false_ne_true] at h
    split at h
    · obtain ⟨rest, hrest, rfl⟩ := Option.map_eq_some_iff.mp h
      rw [length_cons, length_cons, ih hrest hline.2]
    · cases h

theorem natural?_of_long {cs : List Char} {p : Char → Bool} (hlike : cs.all isDigitLike = true)
    (hlong : digitLimit < (cs.takeWhile p).length) : natural? cs = none := by
  have hline : '_' ∉ cs := fun hmem => absurd (all_eq_true.mp hlike _ hmem) (by decide)
  have htaken := (takeWhile_sublist (l := cs) p).length_le
  unfold natural?
  cases hdigits : digits? false cs with
  | none => rfl
  | some digits =>
    have hlength := length_of_digits? hdigits hline
    exact if_neg (by omega)

end Text.Numeral

theorem Allocation.le_of_cells {size length : Int} {count : Nat} (h : cells size length = .ok count) :
    count = length.toNat ∧ size * length ≤ memoryBound := by
  unfold cells at h
  split_ifs at h with _ hmemory
  exact ⟨(Except.ok.inj h).symm, Int.not_lt.mp hmemory⟩

namespace TemporaryPool

def capacityBound : Nat := 0x200000000

/-! ### Names -/

theorem indexText_append (digits : List Char) : indexText (stem ++ String.ofList digits) = digits := by
  have hname : (stem ++ String.ofList digits).toList = stem.toList ++ digits := by simp
  have hstem : stem.toList.isPrefixOf (stem.toList ++ digits) = true := by simp
  rw [indexText, hname, if_pos hstem, ← String.length_toList, drop_left]

theorem indexText_name (index : Nat) : indexText (name index) = Nat.toDigits 10 index :=
  indexText_append (Nat.toDigits 10 index)

theorem indexOf_of_some {digits : List Char} (hlike : digits.all Text.isDigitLike = true)
    (h : Text.Numeral.natural? digits = some index) : pool.indexOf (stem ++ String.ofList digits) =
      if index < pool.capacity then .ok index
      else .error (.refused (.foreignTemporary (stem ++ String.ofList digits))) := by
  have hfull : digits.isEmpty = false := by
    cases digits with
    | nil => cases h
    | cons c cs => rfl
  have hshort : ¬ Text.Numeral.digitLimit <
      (digits.takeWhile fun c => (Text.decimalValue? c).isSome).length := by
    intro hlong
    cases h.symm.trans (Text.Numeral.natural?_of_long hlike hlong)
  simp only [indexOf, indexText_append, hfull, hlike, Bool.not_true, Bool.or_self, Bool.false_eq_true, if_false,
    hshort, h]

theorem indexOf_name (hindex : index < pool.capacity) (hcapacity : pool.capacity ≤ capacityBound) :
    pool.indexOf (name index) = .ok index := by
  have hshort : (Nat.toDigits 10 index).length ≤ Text.Numeral.digitLimit := by
    have hbound : index < 0x200000000 := Nat.lt_of_lt_of_le hindex hcapacity
    have hlength : (Nat.toDigits 10 index).length ≤ 10 :=
      (Nat.length_toDigits_le_iff (by decide) (by decide)).mpr (Nat.lt_trans hbound (by decide))
    exact Nat.le_trans hlength (by decide)
  have hlike : (Nat.toDigits 10 index).all Text.isDigitLike = true := by
    rw [all_eq_true]
    intro c hc
    have hdigit := Nat.isDigit_of_mem_toDigits (by decide) (by decide) hc
    simp [Text.isDigitLike, Text.Numeral.decimalValue?_of_isDigit hdigit]
  have hvalue := (Text.Numeral.natural?_toDigits index).trans (if_pos hshort)
  exact (indexOf_of_some hlike hvalue).trans (if_pos hindex)

/-! ### Use -/

def uses (pool : TemporaryPool) (index : Nat) : Bool := pool.slots.getD index false

def SameUse (a b : TemporaryPool) : Prop :=
  b.capacity = a.capacity ∧ ∀ index, b.uses index = a.uses index

theorem SameUse.refl (pool : TemporaryPool) : SameUse pool pool := ⟨rfl, fun _ => rfl⟩

theorem SameUse.trans {a b c : TemporaryPool} (h : SameUse a b) (h' : SameUse b c) : SameUse a c :=
  ⟨h'.1.trans h.1, fun index => (h'.2 index).trans (h.2 index)⟩

theorem uses_mark (used : Bool) (h : index < pool.slots.length) (other : Nat) :
    (pool.mark index used).uses other = if other = index then used else pool.uses other := by
  unfold uses mark
  by_cases hsame : other = index
  · subst hsame
    simp [getD_eq_getElem?_getD, h]
  · simp [getD_eq_getElem?_getD, hsame, getElem?_set_ne (Ne.symm hsame)]

theorem uses_eq (h : index < pool.slots.length) : pool.uses index = pool.slots[index] := by
  simp [uses, getD_eq_getElem?_getD, h]

theorem lt_of_uses (h : pool.uses index = true) : index < pool.slots.length := by
  by_contra hout
  simp [uses, getD_eq_getElem?_getD, getElem?_eq_none (Nat.le_of_not_lt hout)] at h

theorem acquire?_spec (h : pool.acquire? = some (counter, pool')) :
    ∃ index, counter = name index ∧ index < pool.capacity ∧ pool.uses index = false ∧
      pool'.capacity = pool.capacity ∧
      (∀ other, pool'.uses other = if other = index then true else pool.uses other) ∧
      ∀ lower < index, pool.uses lower = true := by
  unfold acquire? at h
  split at h
  case h_1 index hfound =>
      obtain ⟨rfl, rfl⟩ : name index = counter ∧ pool.mark index true = pool' := by simpa using h
      obtain ⟨hlength, hfree, hlower⟩ := findIdx?_eq_some_iff_getElem.mp hfound
      refine ⟨index, rfl, Nat.lt_of_lt_of_le hlength pool.fits, ?_, rfl, uses_mark true hlength,
        fun lower hlt => ?_⟩
      · rw [uses_eq hlength]
        simpa using hfree
      · rw [uses_eq (Nat.lt_trans hlt hlength)]
        simpa using hlower lower hlt
  case h_2 hnone =>
      split at h
      case isFalse => cases h
      case isTrue hroom =>
          obtain ⟨rfl, rfl⟩ := by simpa using h
          refine ⟨pool.slots.length, rfl, hroom, ?_, rfl, fun other => ?_, fun lower hlt => ?_⟩
          · simp [uses, getD_eq_getElem?_getD]
          · unfold uses
            by_cases hsame : other = pool.slots.length
            · subst hsame
              simp [getD_eq_getElem?_getD]
            · simp only [getD_eq_getElem?_getD, hsame, if_false]
              rcases Nat.lt_or_gt_of_ne hsame with hlt | hgt
              · rw [getElem?_append_left hlt]
              · rw [getElem?_eq_none (by simp; omega), getElem?_eq_none (by omega)]
          · rw [uses_eq hlt]
            simpa using findIdx?_eq_none_iff.mp hnone _ (getElem_mem hlt)

theorem release_name (h : pool.uses index = true) (hcapacity : pool.capacity ≤ capacityBound) :
    pool.release (name index) = .ok (pool.mark index false) := by
  rw [release, indexOf_name (Nat.lt_of_lt_of_le (lt_of_uses h) pool.fits) hcapacity]
  exact if_pos h

/-- A counter that was taken can be given back after steps that keep the use of the pool, and then
the use is that from before. -/
theorem release_acquired {taken later : TemporaryPool} (hcapacity : pool.capacity ≤ capacityBound)
    (htaken : pool.acquire? = some (counter, taken)) (hlater : SameUse taken later) :
    ∃ after, later.release counter = .ok after ∧ SameUse pool after := by
  obtain ⟨index, rfl, -, hfree, hsize, huses, -⟩ := acquire?_spec htaken
  have hsame : later.capacity = pool.capacity := hlater.1.trans hsize
  have hused : later.uses index = true := by rw [hlater.2, huses, if_pos rfl]
  refine ⟨later.mark index false, release_name hused (hsame ▸ hcapacity), hsame, fun other => ?_⟩
  rw [uses_mark false (lt_of_uses hused), hlater.2, huses]
  split
  · subst other
    exact hfree.symm
  · rfl

/-! ### Nested use -/

/-- The first slots are in use, one for each open loop. -/
structure Holds (pool : TemporaryPool) (depth : Nat) : Prop where
  capacity : pool.capacity ≤ capacityBound
  uses : ∀ index, pool.uses index = decide (index < depth)

theorem Holds.acquire (h : pool.Holds depth) (htaken : pool.acquire? = some (counter, pool')) :
    counter = name depth ∧ pool'.Holds (depth + 1) := by
  obtain ⟨index, rfl, -, hfree, hsize, huses, hlower⟩ := acquire?_spec htaken
  have habove : depth ≤ index := by
    rw [h.uses, decide_eq_false_iff_not] at hfree
    omega
  have hbelow : index ≤ depth := by
    by_contra hgap
    have hused := hlower depth (by omega)
    rw [h.uses, decide_eq_true_eq] at hused
    omega
  obtain rfl : index = depth := by omega
  refine ⟨rfl, hsize ▸ h.capacity, fun other => ?_⟩
  rw [huses, h.uses]
  split_ifs with hother
  · subst hother
    simp
  · rw [decide_eq_decide]
    omega

theorem Holds.release (h : pool.Holds (depth + 1)) :
    ∃ after, pool.release (name depth) = .ok after ∧ after.Holds depth := by
  have hused : pool.uses depth = true := by simp [h.uses]
  refine ⟨pool.mark depth false, release_name hused h.capacity, h.capacity, fun other => ?_⟩
  rw [uses_mark false (lt_of_uses hused), h.uses]
  split_ifs with hother
  · subst hother
    simp
  · rw [decide_eq_decide]
    omega

/-! ### Runs -/

theorem name_injective {i j : Nat} (h : name i = name j) : i = j := by
  have hdigits : Nat.toDigits 10 i = Nat.toDigits 10 j := by
    rw [← indexText_name, h, indexText_name]
  rw [← Nat.ofDigitChars_ten_toDigits (n := i), hdigits, Nat.ofDigitChars_ten_toDigits]

theorem mem_inUse : counter ∈ pool.inUse ↔ ∃ index, pool.uses index = true ∧ counter = name index := by
  have huses : ∀ index, pool.uses index = true ↔ (true, index) ∈ pool.slots.zipIdx := by
    intro index
    rw [mem_zipIdx_iff_getElem?, uses, getD_eq_getElem?_getD]
    cases pool.slots[index]? <;> simp
  simp only [inUse, mem_filterMap, huses]
  constructor
  · rintro ⟨⟨_ | _, index⟩, hslot, hname⟩
    · cases hname
    · exact ⟨index, hslot, (Option.some.inj hname).symm⟩
  · rintro ⟨index, hslot, rfl⟩
    exact ⟨_, hslot, rfl⟩

theorem name_mem_inUse : name index ∈ pool.inUse ↔ pool.uses index = true := by
  rw [mem_inUse]
  refine ⟨?_, fun h => ⟨index, h, rfl⟩⟩
  rintro ⟨other, huses, hname⟩
  rwa [name_injective hname]

theorem mem_inUse_mark (h : pool.uses index = true) :
    counter ∈ (pool.mark index false).inUse ↔ counter ∈ pool.inUse ∧ counter ≠ name index := by
  simp only [mem_inUse, uses_mark false (lt_of_uses h)]
  constructor
  · rintro ⟨i, hi, rfl⟩
    split_ifs at hi with hsame
    exact ⟨⟨i, hi, rfl⟩, fun h => hsame (name_injective h)⟩
  · rintro ⟨⟨i, hi, rfl⟩, hne⟩
    have hother : i ≠ index := fun h => hne (congrArg name h)
    exact ⟨i, by rw [if_neg hother, hi], rfl⟩

/-- The names in use are in the order of their slots. -/
theorem inUse_ordered (pool : TemporaryPool) : ∃ indices : List Nat,
    pool.inUse = indices.map name ∧ indices.Pairwise (· < ·) ∧ ∀ i ∈ indices, i < pool.capacity := by
  have hmap : ∀ slots : List (Bool × Nat), (slots.filterMap fun slot =>
      if slot.1 then some (name slot.2) else none) = ((slots.filter Prod.fst).map Prod.snd).map name := by
    intro slots
    induction slots with
    | nil => rfl
    | cons slot slots ih =>
      obtain ⟨_ | _, index⟩ := slot
      · simpa using ih
      · simpa using ih
  have hsub : ((pool.slots.zipIdx.filter Prod.fst).map Prod.snd).Sublist (range' 0 pool.slots.length) := by
    rw [← zipIdx_map_snd 0 pool.slots]
    exact filter_sublist.map _
  refine ⟨_, hmap _, Pairwise.sublist hsub pairwise_lt_range', fun i hi => ?_⟩
  have hbelow := (mem_range'_1.mp (hsub.subset hi)).2
  have hfits := pool.fits
  omega

theorem release_spec {next : TemporaryPool} (h : pool.release counter = .ok next) :
    ∃ index, pool.uses index = true ∧ next = pool.mark index false := by
  unfold release at h
  split at h
  · cases h
  · next index _ =>
    split_ifs at h with hused
    cases h
    exact ⟨index, hused, rfl⟩

theorem acquire?_eq_none : pool.acquire? = none ↔ ∀ index < pool.capacity, pool.uses index = true := by
  constructor
  · intro h index hindex
    unfold acquire? at h
    split at h
    · cases h
    · next hnone =>
      split_ifs at h with hroom
      have hlength : index < pool.slots.length := by omega
      rw [uses_eq hlength]
      simpa using findIdx?_eq_none_iff.mp hnone _ (getElem_mem hlength)
  · intro h
    cases hacquire : pool.acquire? with
    | none => rfl
    | some taken =>
      obtain ⟨index, -, hindex, hfree, -⟩ := acquire?_spec hacquire
      rw [h index hindex] at hfree
      cases hfree

/-- A use of a pool. -/
inductive Call where
  | acquire
  | release (counter : String)

inductive Answer where
  | taken (counter : String)
  | exhausted
  | released
  | failed (e : ReleaseError)

/-- What a call answers, and the pool after it. -/
def answer (pool : TemporaryPool) : Call → Answer × TemporaryPool
  | .acquire => pool.acquire?.elim (.exhausted, pool) fun taken => (.taken taken.1, taken.2)
  | .release counter =>
    match pool.release counter with
    | .ok next => (.released, next)
    | .error e => (.failed e, pool)

def after (pool : TemporaryPool) (calls : List Call) : TemporaryPool :=
  calls.foldl (fun pool call => (pool.answer call).2) pool

/-- What a call may do: an answer that is no failure changes one name, a failure changes nothing. -/
structure Serves (pool : TemporaryPool) (call : Call) (answer : Answer) (next : TemporaryPool) : Prop where
  taken : ∀ counter, answer = .taken counter → call = .acquire ∧ ∃ index < pool.capacity,
    counter = name index ∧ counter ∉ pool.inUse ∧ (∀ lower < index, name lower ∈ pool.inUse) ∧
      ∀ other, other ∈ next.inUse ↔ other = counter ∨ other ∈ pool.inUse
  released : answer = .released → ∃ given ∈ pool.inUse,
    ∀ other, other ∈ next.inUse ↔ other ∈ pool.inUse ∧ other ≠ given
  exhausted : answer = .exhausted → next = pool
  failed : ∀ e, answer = .failed e → next = pool

theorem serves_acquire (pool : TemporaryPool) :
    pool.Serves .acquire (pool.answer .acquire).1 (pool.answer .acquire).2 := by
  unfold answer
  cases hacquire : pool.acquire? with
  | none => exact ⟨by simp, by simp, fun _ => rfl, by simp⟩
  | some taken =>
    obtain ⟨counter, next⟩ := taken
    refine ⟨fun other hother => ⟨rfl, ?_⟩, by simp, by simp, by simp⟩
    obtain rfl : counter = other := Answer.taken.inj hother
    obtain ⟨index, rfl, hindex, hfree, -, huses, hlower⟩ := acquire?_spec hacquire
    refine ⟨index, hindex, rfl, by simp [name_mem_inUse, hfree], fun lower h => ?_, fun other => ?_⟩
    · exact name_mem_inUse.mpr (hlower lower h)
    · simp only [Option.elim_some, mem_inUse, huses]
      constructor
      · rintro ⟨i, hi, rfl⟩
        split_ifs at hi with hsame
        · exact .inl (hsame ▸ rfl)
        · exact .inr ⟨i, hi, rfl⟩
      · rintro (rfl | ⟨i, hi, rfl⟩)
        · exact ⟨index, by simp, rfl⟩
        · exact ⟨i, by simp [hi], rfl⟩

theorem serves_release (pool : TemporaryPool) (counter : String) :
    pool.Serves (.release counter) (pool.answer (.release counter)).1 (pool.answer (.release counter)).2 := by
  cases hrelease : pool.release counter with
  | error e =>
    have hanswer : pool.answer (.release counter) = (.failed e, pool) := by rw [answer, hrelease]
    rw [hanswer]
    exact ⟨by simp, by simp, by simp, fun _ _ => rfl⟩
  | ok next =>
    have hanswer : pool.answer (.release counter) = (.released, next) := by rw [answer, hrelease]
    rw [hanswer]
    obtain ⟨index, hused, rfl⟩ := release_spec hrelease
    exact ⟨by simp, fun _ => ⟨name index, name_mem_inUse.mpr hused, fun _ => mem_inUse_mark hused⟩, by simp, by simp⟩

theorem capacity_answer (pool : TemporaryPool) (call : Call) : (pool.answer call).2.capacity = pool.capacity := by
  cases call with
  | acquire =>
    rw [answer]
    cases hacquire : pool.acquire? with
    | none => rfl
    | some taken =>
      obtain ⟨-, -, -, -, hsize, -⟩ := acquire?_spec hacquire
      exact hsize
  | release counter =>
    rw [answer]
    cases hrelease : pool.release counter with
    | error e => rfl
    | ok next =>
      obtain ⟨index, -, rfl⟩ := release_spec hrelease
      rfl

theorem capacity_after (pool : TemporaryPool) (calls : List Call) : (pool.after calls).capacity = pool.capacity := by
  induction calls generalizing pool with
  | nil => rfl
  | cons call calls ih => exact (ih _).trans (capacity_answer pool call)

theorem create_spec {capacity : Int} (h : create capacity = .ok pool) :
    (pool.capacity : Int) = capacity ∧ pool.capacity ≤ capacityBound ∧ pool.slots = [] := by
  unfold create at h
  split_ifs at h
  cases hcells : Allocation.cells slotSize capacity with
  | error b =>
    rw [hcells] at h
    cases h
  | ok count =>
    rw [hcells] at h
    obtain rfl := Except.ok.inj h
    obtain ⟨rfl, hmemory⟩ := Allocation.le_of_cells hcells
    simp only [Allocation.memoryBound, slotSize] at hmemory
    refine ⟨Int.toNat_of_nonneg (by omega), ?_, rfl⟩
    change capacity.toNat ≤ 0x200000000
    omega

theorem capacity_create {capacity : Int} (h : create capacity = .ok pool) : (pool.capacity : Int) = capacity :=
  (create_spec h).1

theorem create_ok {capacity : Int} (h : create capacity = .ok pool) : pool.capacity ≤ capacityBound :=
  (create_spec h).2.1

/-- After every run of calls on a new pool the names in use are some of those of its slots, in order. The
next call takes the lowest name that is free, and fails to exactly when none is; or it gives one name back;
and where it fails it leaves the pool as it was. -/
theorem pool_serves_every_run {capacity : Int} {start : TemporaryPool} (hstart : create capacity = .ok start)
    (calls : List Call) :
    (∃ indices : List Nat, (start.after calls).inUse = indices.map name ∧ indices.Pairwise (· < ·) ∧
      ∀ i ∈ indices, (i : Int) < capacity) ∧
    (((start.after calls).answer .acquire).1 = .exhausted ↔
      ∀ i : Nat, (i : Int) < capacity → name i ∈ (start.after calls).inUse) ∧
    ∀ call, (start.after calls).Serves call ((start.after calls).answer call).1
      (start.after (calls ++ [call])) := by
  have hcapacity : ∀ i : Nat, (i : Int) < capacity ↔ i < (start.after calls).capacity := by
    intro i
    rw [capacity_after, ← capacity_create hstart, Int.ofNat_lt]
  simp only [hcapacity, name_mem_inUse, ← acquire?_eq_none]
  refine ⟨inUse_ordered _, ?_, fun call => ?_⟩
  · unfold answer
    cases (start.after calls).acquire? <;> simp
  · have hnext : start.after (calls ++ [call]) = ((start.after calls).answer call).2 := foldl_append
    rw [hnext]
    cases call with
    | acquire => exact serves_acquire _
    | release counter => exact serves_release _ counter

/-- With two slots, a foreign name is refused, and the name given back is the next to be taken. -/
theorem pool_serves_two_slots :
    ∃ start, create 2 = .ok start ∧
      (start.after [.acquire, .acquire, .release "_temp_²", .release "_temp_0"]).inUse = ["_temp_1"] ∧
      ((start.after [.acquire, .acquire]).answer .acquire).1 = .exhausted ∧
      (start.after [.acquire, .acquire]).Serves (.release "x")
        ((start.after [.acquire, .acquire]).answer (.release "x")).1
        (start.after ([.acquire, .acquire] ++ [.release "x"])) := by
  have hstart : create 2 = .ok ⟨2, [], by decide⟩ := rfl
  refine ⟨_, hstart, by decide +kernel, (pool_serves_every_run hstart _).2.1.mpr fun i hi => ?_,
    (pool_serves_every_run hstart _).2.2 _⟩
  have hlow : i = 0 ∨ i = 1 := by omega
  rcases hlow with rfl | rfl <;> decide +kernel

/-! ### Spellings -/

theorem eq_append_of_indexText {digits : List Char} (h : indexText counter = digits) (hne : digits ≠ []) :
    counter = stem ++ String.ofList digits := by
  unfold indexText at h
  split_ifs at h with hstem
  · obtain ⟨rest, hrest⟩ := isPrefixOf_iff_prefix.mp hstem
    rw [← hrest, ← String.length_toList, drop_left] at h
    rw [← String.toList_inj, ← hrest, h]
    simp
  · exact absurd h.symm hne

theorem release_of_foreign
    (h : (indexText counter).isEmpty = true ∨ (indexText counter).all Text.isDigitLike = false) :
    pool.release counter = .error (.refused (.foreignTemporary counter)) := by
  have hforeign : ((indexText counter).isEmpty || !(indexText counter).all Text.isDigitLike) = true := by
    rcases h with h | h <;> simp [h]
  rw [release, indexOf, if_pos hforeign]

section

variable {digits : List Char} (hlike : digits.all Text.isDigitLike = true)
include hlike

theorem release_of_none (hne : digits ≠ []) (h : Text.Numeral.natural? digits = none) :
    ∃ b, pool.release (stem ++ String.ofList digits) = .error (.broken b) := by
  have hfull : digits.isEmpty = false := by simpa using hne
  simp only [release, indexOf, indexText_append, hfull, hlike, Bool.not_true, Bool.or_self,
    Bool.false_eq_true, if_false, h]
  split_ifs
  · exact ⟨_, rfl⟩
  · exact ⟨_, rfl⟩

theorem release_of_some (h : Text.Numeral.natural? digits = some index) :
    pool.release (stem ++ String.ofList digits) =
      if pool.uses index then .ok (pool.mark index false)
      else .error (.refused (if index < pool.capacity then .releasedTwice (stem ++ String.ofList digits)
        else .foreignTemporary (stem ++ String.ofList digits))) := by
  rw [release, indexOf_of_some hlike h]
  by_cases hindex : index < pool.capacity
  · simp only [hindex, if_true]
    rfl
  · have hunused : pool.uses index = false := by
      rw [Bool.eq_false_iff]
      exact fun hused => hindex (Nat.lt_of_lt_of_le (lt_of_uses hused) pool.fits)
    simp only [hindex, if_false, hunused, Bool.false_eq_true]

end

/-- Giving a name back does what the name says: one that is in use is in use no longer, and any other
one is refused as an internal error. -/
structure ReleasesExactly (pool : TemporaryPool) (counter : String) : Prop where
  held : counter ∈ pool.inUse → ∃ next, pool.release counter = .ok next ∧
    ∀ other, other ∈ next.inUse ↔ other ∈ pool.inUse ∧ other ≠ counter
  foreign : counter ∉ pool.inUse → ∃ fault, pool.release counter = .error (.refused fault) ∧
    fault.area = .internal

/-- A name that is not in use, with an end that looks like digits: they give no number, or the number of
a name in use, which is spelled in another way. -/
def Misread (pool : TemporaryPool) (counter : String) : Prop :=
  counter ∉ pool.inUse ∧ ∃ digits, counter = stem ++ String.ofList digits ∧ digits ≠ [] ∧
    digits.all Text.isDigitLike = true ∧
    ∀ index, Text.Numeral.natural? digits = some index → name index ∈ pool.inUse

theorem Misread.release (h : pool.Misread counter) :
    (∃ b, pool.release counter = .error (.broken b)) ∨ ∃ given ∈ pool.inUse, given ≠ counter ∧
      ∃ next, pool.release counter = .ok next ∧
        ∀ other, other ∈ next.inUse ↔ other ∈ pool.inUse ∧ other ≠ given := by
  obtain ⟨hfree, digits, rfl, hne, hlike, hheld⟩ := h
  cases hvalue : Text.Numeral.natural? digits with
  | none => exact .inl (release_of_none hlike hne hvalue)
  | some index =>
    have hgiven := hheld index hvalue
    have hused := name_mem_inUse.mp hgiven
    refine .inr ⟨name index, hgiven, fun hsame => hfree (hsame ▸ hgiven), pool.mark index false, ?_,
      fun _ => mem_inUse_mark hused⟩
    rw [release_of_some hlike hvalue, hused, if_pos rfl]

theorem release_held (hcapacity : pool.capacity ≤ capacityBound) (h : counter ∈ pool.inUse) :
    ∃ next, pool.release counter = .ok next ∧
      ∀ other, other ∈ next.inUse ↔ other ∈ pool.inUse ∧ other ≠ counter := by
  obtain ⟨index, hused, rfl⟩ := mem_inUse.mp h
  exact ⟨pool.mark index false, release_name hused hcapacity, fun other => mem_inUse_mark hused⟩

theorem release_refused (hfree : counter ∉ pool.inUse) (h : ¬ pool.Misread counter) :
    ∃ fault, pool.release counter = .error (.refused fault) ∧ fault.area = .internal := by
  by_cases hforeign : (indexText counter).isEmpty = true ∨
      (indexText counter).all Text.isDigitLike = false
  · exact ⟨_, release_of_foreign hforeign, rfl⟩
  · obtain ⟨hne, hlike⟩ := not_or.mp hforeign
    rw [Bool.not_eq_false] at hlike
    have hne : indexText counter ≠ [] := by simpa using hne
    have hspelled := eq_append_of_indexText rfl hne
    generalize indexText counter = digits at *
    subst hspelled
    -- the digits are read as the number of a slot that is not in use
    obtain ⟨index, hvalue, hunused⟩ : ∃ index, Text.Numeral.natural? digits = some index ∧
        name index ∉ pool.inUse := by
      by_contra hnone
      push Not at hnone
      exact h ⟨hfree, digits, rfl, hne, hlike, hnone⟩
    rw [name_mem_inUse, Bool.not_eq_true] at hunused
    refine ⟨_, (release_of_some hlike hvalue).trans (by rw [hunused]; rfl), ?_⟩
    split_ifs <;> rfl

/-- After every run of calls on a new pool a name can be given back exactly as it should, unless it is
misread; and a misread name breaks the pool off or gives back a name that it is not. -/
theorem released_exactly_iff_not_misread {capacity : Int} {start : TemporaryPool}
    (hstart : create capacity = .ok start) (calls : List Call) (counter : String) :
    ((start.after calls).ReleasesExactly counter ↔ ¬ (start.after calls).Misread counter) ∧
    ((start.after calls).Misread counter → (∃ b, (start.after calls).release counter = .error (.broken b)) ∨
      ∃ given ∈ (start.after calls).inUse, given ≠ counter ∧
        ∃ next, (start.after calls).release counter = .ok next ∧
          ∀ other, other ∈ next.inUse ↔ other ∈ (start.after calls).inUse ∧ other ≠ given) := by
  have hcapacity : (start.after calls).capacity ≤ capacityBound := by
    rw [capacity_after]
    exact create_ok hstart
  refine ⟨⟨fun h hmisread => ?_, fun h => ⟨release_held hcapacity, (release_refused · h)⟩⟩,
    Misread.release⟩
  obtain ⟨fault, hrefused, -⟩ := h.foreign hmisread.1
  rcases hmisread.release with ⟨b, hbroken⟩ | ⟨given, -, -, next, hok, -⟩
  · cases hrefused.symm.trans hbroken
  · cases hrefused.symm.trans hok

/-- With one name in use, that name is given back as it should be and a name of no slot is refused, but
the same digit of another script is misread. -/
theorem released_exactly_of_own_digit :
    ∃ start, create 2 = .ok start ∧ (start.after [.acquire]).ReleasesExactly "_temp_0" ∧
      (start.after [.acquire]).ReleasesExactly "_temp_00x" ∧
      ¬ (start.after [.acquire]).ReleasesExactly "_temp_٠" := by
  have hstart : create 2 = .ok ⟨2, [], by decide⟩ := rfl
  have hexact := fun counter => (released_exactly_iff_not_misread hstart [.acquire] counter).1
  refine ⟨_, hstart, (hexact _).mpr fun h => h.1 (by decide +kernel), (hexact _).mpr ?_,
    fun h => (hexact _).mp h ?_⟩
  · rintro ⟨-, digits, hspelled, -, hlike, -⟩
    have hdigits : indexText "_temp_00x" = digits := hspelled ▸ indexText_append digits
    rw [← hdigits] at hlike
    exact absurd hlike (by decide +kernel)
  · refine ⟨by decide +kernel, ['٠'], rfl, by simp, by decide +kernel, fun index hindex => ?_⟩
    have hzero : Text.Numeral.natural? ['٠'] = some 0 := by decide +kernel
    obtain rfl := Option.some.inj (hzero.symm.trans hindex)
    decide +kernel

/-- A leading zero makes a name that is not in use, and yet it gives a slot back. -/
theorem padded_name_given_back :
    ∃ start next, create 2 = .ok start ∧ "_temp_01" ∉ (start.after [.acquire, .acquire]).inUse ∧
      (start.after [.acquire, .acquire]).release "_temp_01" = .ok next ∧ next.inUse = ["_temp_0"] ∧
      ¬ (start.after [.acquire, .acquire]).ReleasesExactly "_temp_01" := by
  have hfree : "_temp_01" ∉ (after ⟨2, [], by decide⟩ [.acquire, .acquire]).inUse := by decide +kernel
  have hone : Text.Numeral.natural? ['0', '1'] = some 1 := by decide +kernel
  have hrelease : (after ⟨2, [], by decide⟩ [.acquire, .acquire]).release "_temp_01" =
      .ok (mark (after ⟨2, [], by decide⟩ [.acquire, .acquire]) 1 false) :=
    (release_of_some (by decide +kernel) hone).trans (if_pos (by decide +kernel))
  refine ⟨⟨2, [], by decide⟩, _, rfl, hfree, hrelease, by decide +kernel, fun h => ?_⟩
  obtain ⟨fault, hrefused, -⟩ := h.foreign hfree
  cases hrelease.symm.trans hrefused

end TemporaryPool

end CirOutline
