import CirOutline.Fault

/-!
How a step ends. Layout reading and emission are both steps on a state that give a value or stop;
`Ends` says what holds in each case, so that one statement about a step covers its results and its
failures. A sequence of steps is treated one step at a time.
-/

namespace CirOutline

variable {α β ε σ : Type}

/-- From the state `s` the step gives a value with `Q`, or stops with `E`. -/
def Ends {ε σ α : Type} (m : EStateM ε σ α) (s : σ) (Q : α → σ → Prop) (E : ε → σ → Prop) : Prop :=
  match m s with
  | .ok a s' => Q a s'
  | .error e s' => E e s'

theorem bind_of_ok {m : EStateM ε σ α} {f : α → EStateM ε σ β} {s s' : σ} {a : α} (h : m s = .ok a s') :
    (m >>= f) s = f a s' := by
  change EStateM.bind m f s = f a s'
  rw [EStateM.bind, h]

theorem bind_of_error {m : EStateM ε σ α} {f : α → EStateM ε σ β} {s s' : σ} {e : ε} (h : m s = .error e s') :
    (m >>= f) s = .error e s' := by
  change EStateM.bind m f s = .error e s'
  rw [EStateM.bind, h]

theorem exists_of_bind_ok {m : EStateM ε σ α} {f : α → EStateM ε σ β} {s s' : σ} {b : β}
    (h : (m >>= f) s = .ok b s') : ∃ a s1, m s = .ok a s1 ∧ f a s1 = .ok b s' := by
  cases hm : m s with
  | ok a s1 => exact ⟨a, s1, rfl, (bind_of_ok hm).symm.trans h⟩
  | error e s1 => cases (bind_of_error hm).symm.trans h

theorem get_bind (f : σ → EStateM ε σ β) (s : σ) : (get >>= f) s = f s s := rfl

theorem eq_ok_of_toOption {x : Except ε α} {a : α} (h : x.toOption = some a) : x = .ok a := by
  cases x with
  | ok b => exact congrArg Except.ok (Option.some.inj h)
  | error e => cases h

namespace Ends

variable {m : EStateM ε σ α} {f : α → EStateM ε σ β} {s : σ} {Q Q' : α → σ → Prop} {R : β → σ → Prop}
  {E E' : ε → σ → Prop}

theorem of_ok {a : α} {s' : σ} (h : m s = .ok a s') (hq : Q a s') : Ends m s Q E := by
  rw [Ends, h]
  exact hq

theorem of_error {e : ε} {s' : σ} (h : m s = .error e s') (he : E e s') : Ends m s Q E := by
  rw [Ends, h]
  exact he

theorem ok {a : α} {s' : σ} (h : Ends m s Q E) (hm : m s = .ok a s') : Q a s' := by
  rw [Ends, hm] at h
  exact h

theorem error {e : ε} {s' : σ} (h : Ends m s Q E) (hm : m s = .error e s') : E e s' := by
  rw [Ends, hm] at h
  exact h

theorem always (hq : ∀ a s', Q a s') (he : ∀ e s', E e s') : Ends m s Q E := by
  cases hm : m s with
  | ok a s' => exact of_ok hm (hq a s')
  | error e s' => exact of_error hm (he e s')

theorem mono (h : Ends m s Q E) (hq : ∀ a s', Q a s' → Q' a s') (he : ∀ e s', E e s' → E' e s') :
    Ends m s Q' E' := by
  cases hm : m s with
  | ok a s' => exact of_ok hm (hq a s' (h.ok hm))
  | error e s' => exact of_error hm (he e s' (h.error hm))

theorem weaken (h : Ends m s Q E) (hq : ∀ a s', Q a s' → Q' a s') : Ends m s Q' E :=
  h.mono hq fun _ _ he => he

theorem bind (hm : Ends m s Q E) (hf : ∀ a s', Q a s' → Ends (f a) s' R E) : Ends (m >>= f) s R E := by
  cases h : m s with
  | ok a s' =>
    have hrest := hf a s' (hm.ok h)
    rw [Ends] at hrest ⊢
    rw [bind_of_ok h]
    exact hrest
  | error e s' => exact of_error (bind_of_error h) (hm.error h)

theorem bind_ok {a : α} {s' : σ} (h : m s = .ok a s') (hf : Ends (f a) s' R E) : Ends (m >>= f) s R E := by
  rw [Ends, bind_of_ok h]
  exact hf

theorem bind_pure {a : α} (h : Ends (f a) s R E) : Ends (Pure.pure a >>= f) s R E := h

theorem pure {a : α} (h : Q a s) : Ends (Pure.pure a : EStateM ε σ α) s Q E := h

theorem throw {e : ε} (h : E e s) : Ends (MonadExcept.throw e : EStateM ε σ α) s Q E := h

theorem modify {Q : PUnit → σ → Prop} {g : σ → σ} (h : Q ⟨⟩ (g s)) : Ends (modify g : EStateM ε σ PUnit) s Q E := h

theorem bind_get {f : σ → EStateM ε σ β} (h : Ends (f s) s R E) : Ends (get >>= f) s R E := h

theorem bind_set {f : PUnit → EStateM ε σ β} {s' : σ} (h : Ends (f ⟨⟩) s' R E) : Ends (set s' >>= f) s R E := h

theorem bind_modify {f : PUnit → EStateM ε σ β} {g : σ → σ} (h : Ends (f ⟨⟩) (g s) R E) :
    Ends (MonadState.modifyGet (fun s => (⟨⟩, g s)) >>= f) s R E := h

end Ends

end CirOutline
