import CirOutline.Diagnostic
import CirOutline.Proofs.Outcome

/-!
Two runs side by side. `Paired` says that two steps, each from its own state, both give a value or
both stop, and what then holds between the two results. Like `Ends` it takes a sequence of steps
apart one step at a time.
-/

namespace CirOutline

/-- From the states `s` and `s'` both steps give a value, with `Q`, or both stop, with `E`. -/
def Paired {ε σ α : Type} (m m' : EStateM ε σ α) (s s' : σ) (Q : α → α → σ → σ → Prop)
    (E : ε → ε → σ → σ → Prop) : Prop :=
  match m s, m' s' with
  | .ok a t, .ok a' t' => Q a a' t t'
  | .error e t, .error e' t' => E e e' t t'
  | _, _ => False

namespace Paired

variable {ε σ α β : Type} {m m' : EStateM ε σ α} {f f' : α → EStateM ε σ β} {s s' : σ}
  {Q Q' : α → α → σ → σ → Prop} {R : β → β → σ → σ → Prop} {E : ε → ε → σ → σ → Prop}

theorem of_ok {a a' : α} {t t' : σ} (h : m s = .ok a t) (h' : m' s' = .ok a' t')
    (hq : Q a a' t t') : Paired m m' s s' Q E := by
  rw [Paired, h, h']
  exact hq

theorem of_error {e e' : ε} {t t' : σ} (h : m s = .error e t) (h' : m' s' = .error e' t')
    (he : E e e' t t') : Paired m m' s s' Q E := by
  rw [Paired, h, h']
  exact he

theorem results (h : Paired m m' s s' Q E) : (∃ a t a' t', m s = .ok a t ∧ m' s' = .ok a' t' ∧ Q a a' t t') ∨
      ∃ e t e' t', m s = .error e t ∧ m' s' = .error e' t' ∧ E e e' t t' := by
  cases hm : m s with
  | ok a t =>
    cases hm' : m' s' with
    | ok a' t' =>
      rw [Paired, hm, hm'] at h
      exact .inl ⟨a, t, a', t', rfl, rfl, h⟩
    | error e' t' =>
      rw [Paired, hm, hm'] at h
      exact h.elim
  | error e t =>
    cases hm' : m' s' with
    | ok a' t' =>
      rw [Paired, hm, hm'] at h
      exact h.elim
    | error e' t' =>
      rw [Paired, hm, hm'] at h
      exact .inr ⟨e, t, e', t', rfl, rfl, h⟩

theorem ok {a : α} {t : σ} (h : Paired m m' s s' Q E) (hm : m s = .ok a t) :
    ∃ a' t', m' s' = .ok a' t' ∧ Q a a' t t' := by
  rw [Paired, hm] at h
  split at h
  · next heq heq' =>
    cases heq
    exact ⟨_, _, heq', h⟩
  · next heq _ => cases heq
  · exact h.elim

theorem error {e : ε} {t : σ} (h : Paired m m' s s' Q E) (hm : m s = .error e t) :
    ∃ e' t', m' s' = .error e' t' ∧ E e e' t t' := by
  rw [Paired, hm] at h
  split at h
  · next heq _ => cases heq
  · next heq heq' =>
    cases heq
    exact ⟨_, _, heq', h⟩
  · exact h.elim

theorem weaken (h : Paired m m' s s' Q E) (hq : ∀ a a' t t', Q a a' t t' → Q' a a' t t') :
    Paired m m' s s' Q' E := by
  rcases h.results with ⟨a, t, a', t', hm, hm', h⟩ | ⟨e, t, e', t', hm, hm', h⟩
  · exact of_ok hm hm' (hq a a' t t' h)
  · exact of_error hm hm' h

theorem bind (hm : Paired m m' s s' Q E) (hf : ∀ a a' t t', Q a a' t t' → Paired (f a) (f' a') t t' R E) :
    Paired (m >>= f) (m' >>= f') s s' R E := by
  rcases hm.results with ⟨a, t, a', t', hok, hok', h⟩ | ⟨e, t, e', t', herr, herr', h⟩
  · have hrest := hf a a' t t' h
    rw [Paired] at hrest ⊢
    rw [bind_of_ok hok, bind_of_ok hok']
    exact hrest
  · exact of_error (bind_of_error herr) (bind_of_error herr') h

theorem bind_ok {a a' : α} {t t' : σ} (h : m s = .ok a t) (h' : m' s' = .ok a' t')
    (hf : Paired (f a) (f' a') t t' R E) : Paired (m >>= f) (m' >>= f') s s' R E := by
  rw [Paired, bind_of_ok h, bind_of_ok h']
  exact hf

theorem pure {a a' : α} (h : Q a a' s s') : Paired (Pure.pure a : EStateM ε σ α) (Pure.pure a') s s' Q E := h

theorem throw {e e' : ε} (h : E e e' s s') :
    Paired (MonadExcept.throw e : EStateM ε σ α) (MonadExcept.throw e') s s' Q E := h

theorem modify {Q : PUnit → PUnit → σ → σ → Prop} {g g' : σ → σ} (h : Q ⟨⟩ ⟨⟩ (g s) (g' s')) :
    Paired (modify g : EStateM ε σ PUnit) (modify g') s s' Q E := h

theorem bind_get {f f' : σ → EStateM ε σ β} (h : Paired (f s) (f' s') s s' R E) :
    Paired (get >>= f) (get >>= f') s s' R E := h

theorem bind_modify {f f' : PUnit → EStateM ε σ β} {g g' : σ → σ} (h : Paired (f ⟨⟩) (f' ⟨⟩) (g s) (g' s') R E) :
    Paired (MonadState.modifyGet (fun s => (⟨⟩, g s)) >>= f)
      (MonadState.modifyGet (fun s => (⟨⟩, g' s)) >>= f') s s' R E := h

end Paired

/-- Two steps that, from states with `I`, give the same value or stop with `M`, and leave states with `I`. -/
def Matched {ε σ α : Type} (I : σ → σ → Prop) (M : ε → ε → Prop) (m m' : EStateM ε σ α) : Prop :=
  ∀ s s', I s s' → Paired m m' s s' (fun a a' t t' => a = a' ∧ I t t') fun e e' t t' => M e e' ∧ I t t'

namespace Matched

variable {ε σ α β : Type} {I : σ → σ → Prop} {M : ε → ε → Prop} {m m' : EStateM ε σ α}
  {f f' : α → EStateM ε σ β}

theorem bind (hm : Matched I M m m') (hf : ∀ a, Matched I M (f a) (f' a)) : Matched I M (m >>= f) (m' >>= f') := by
  intro s s' hs
  refine Paired.bind (hm s s' hs) ?_
  rintro a a' t t' ⟨rfl, ht⟩
  exact hf a t t' ht

theorem andThen {m m' : EStateM ε σ Unit} {next next' : EStateM ε σ α} (hm : Matched I M m m')
    (hnext : Matched I M next next') : Matched I M (do m; next) (do m'; next') :=
  hm.bind fun _ => hnext

theorem pure (a : α) : Matched I M (Pure.pure a : EStateM ε σ α) (Pure.pure a) :=
  fun _ _ hs => Paired.pure ⟨rfl, hs⟩

theorem throw {e e' : ε} (h : M e e') : Matched I M (MonadExcept.throw e : EStateM ε σ α) (MonadExcept.throw e') :=
  fun _ _ hs => Paired.throw ⟨h, hs⟩

theorem bind_get {f f' : σ → EStateM ε σ β} (h : ∀ s s', I s s' → Matched I M (f s) (f' s')) :
    Matched I M (get >>= f) (get >>= f') :=
  fun s s' hs => Paired.bind_get (h s s' hs s s' hs)

theorem modify {g g' : σ → σ} (h : ∀ s s', I s s' → I (g s) (g' s')) :
    Matched I M (modify g : EStateM ε σ PUnit) (modify g') :=
  fun s s' hs => Paired.modify ⟨rfl, h s s' hs⟩

end Matched

/-! ### Causes -/

/-- What went wrong, places aside. -/
inductive Cause where
  | fault (fault : Fault)
  | breakdown (b : Breakdown)
deriving DecidableEq

def Stop.cause : Stop → Cause
  | .diagnosed d => .fault d.fault
  | .broken b => .breakdown b

/-- Two runs, with their own lines of the source, stop for the same fault; an exact match is at the same
place. Both reports quote the line there, or neither quotes one. -/
inductive Stop.Matches (exact : Prop) (lines lines' : List String) : Stop → Stop → Prop
  | quoting (fault : Fault) {place place' : Option Location} (h : exact → place = place') :
      Matches exact lines lines' (.diagnosed (.quoting lines fault place)) (.diagnosed (.quoting lines' fault place'))
  | bare (fault : Fault) {place place' : Option Location} (h : exact → place = place') :
      Matches exact lines lines' (.diagnosed ⟨fault, place, none⟩) (.diagnosed ⟨fault, place', none⟩)
  | broken (b : Breakdown) : Matches exact lines lines' (.broken b) (.broken b)

theorem Stop.Matches.cause {exact : Prop} {lines lines' : List String} {stop stop' : Stop}
    (h : stop.Matches exact lines lines' stop') : stop.cause = stop'.cause := by
  cases h <;> rfl

end CirOutline
