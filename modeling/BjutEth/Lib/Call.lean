import BjutEth.Lib.Outcome

namespace BjutEth

/-- A call of a method: how it ends, and the object it leaves behind. A call that fails
has changed the object all the same. -/
def Call (σ ε α : Type) := σ → Outcome ε α × σ

namespace Call

variable {σ ε α β : Type}

instance : Monad (Call σ ε) where
  pure a := fun s ↦ (.ok a, s)
  bind m f := fun s ↦
    match m s with
    | (.ok a, t) => f a t
    | (.error stop, t) => (.error stop, t)

instance : MonadLift (Outcome ε) (Call σ ε) where
  monadLift x := fun s ↦ (x, s)

def get : Call σ ε σ := fun s ↦ (.ok s, s)

def modify (f : σ → σ) : Call σ ε Unit := fun s ↦ (.ok (), f s)

variable {m : Call σ ε α} {f : α → Call σ ε β} {s t : σ} {a : α} {b : β}

theorem pure_eq_ok {a' : α} : (pure a : Call σ ε α) s = (.ok a', t) ↔ a = a' ∧ s = t := by
  simp [pure]

variable {x : Outcome ε α}

theorem lift_eq_ok : (liftM x : Call σ ε α) s = (.ok a, t) ↔ x = .ok a ∧ s = t := by
  change (x, s) = _ ↔ _
  rw [Prod.mk.injEq]

theorem get_eq_ok {s' : σ} : (get : Call σ ε σ) s = (.ok s', t) ↔ s = s' ∧ s = t := by
  simp [get]

/-- The object a call leaves behind is named only where it is needed. -/
theorem exists_of_fst {x : Outcome ε α × σ} (h : x.1 = .ok a) : ∃ t, x = (.ok a, t) :=
  ⟨x.2, Prod.ext h rfl⟩

theorem bind_of_ok (h : m s = (.ok a, t)) : (m >>= f) s = f a t := by
  change (match m s with | (.ok a, u) => f a u | (.error stop, u) => (.error stop, u)) = _
  rw [h]

theorem lift_bind_pure {g : α → β} :
    ((liftM x : Call σ ε α) >>= fun a ↦ pure (g a)) s = (x >>= fun a ↦ .ok (g a), s) := by
  cases x <;> rfl

theorem bind_eq_ok :
    (m >>= f) s = (.ok b, t) ↔ ∃ a u, m s = (.ok a, u) ∧ f a u = (.ok b, t) := by
  change (match m s with | (.ok a, u) => f a u | (.error stop, u) => (.error stop, u)) = _ ↔ _
  cases hm : m s with
  | mk x u =>
    cases x with
    | error stop => simp
    | ok a => simp

/-- From an object with `P` the call returns with `Q`, or stops with `E`. -/
def Triple (P : σ → Prop) (m : Call σ ε α) (Q : α → σ → Prop) (E : Stop ε → σ → Prop) : Prop :=
  ∀ s, P s →
    match m s with
    | (.ok a, t) => Q a t
    | (.error stop, t) => E stop t

namespace Triple

variable {P P' : σ → Prop} {Q Q' : α → σ → Prop} {R : β → σ → Prop} {E E' : Stop ε → σ → Prop}

theorem pure (h : ∀ s, P s → Q a s) : Triple P (pure a : Call σ ε α) Q E := h

theorem lift (hok : ∀ a, x = .ok a → ∀ s, P s → Q a s)
    (hstop : ∀ stop, x = .error stop → ∀ s, P s → E stop s) : Triple P (liftM x : Call σ ε α) Q E := by
  intro s hs
  cases x with
  | error stop => exact hstop stop rfl s hs
  | ok a => exact hok a rfl s hs

theorem get : Triple P (get : Call σ ε σ) (fun a s ↦ a = s ∧ P s) E := fun _ hs ↦ ⟨rfl, hs⟩

theorem modify {f : σ → σ} {Q : Unit → σ → Prop} (h : ∀ s, P s → Q () (f s)) :
    Triple P (modify f : Call σ ε Unit) Q E := h

theorem bind (hm : Triple P m Q E) (hf : ∀ a, Triple (Q a) (f a) R E) : Triple P (m >>= f) R E := by
  intro s hs
  have hm := hm s hs
  change match (match m s with | (.ok a, u) => f a u | (.error stop, u) => (.error stop, u)) with
    | (.ok b, t) => R b t
    | (.error stop, t) => E stop t
  match m s, hm with
  | (.ok a, u), hQ => exact hf a u hQ
  | (.error stop, u), hE => exact hE

theorem mono (h : Triple P m Q E) (hP : ∀ s, P' s → P s) (hQ : ∀ a s, Q a s → Q' a s)
    (hE : ∀ stop s, E stop s → E' stop s) : Triple P' m Q' E' := by
  intro s hs
  have h := h s (hP s hs)
  match m s, h with
  | (.ok a, t), hQa => exact hQ a t hQa
  | (.error stop, t), hEa => exact hE stop t hEa

theorem of_ok (h : Triple P m Q E) (hs : P s) (hrun : m s = (.ok a, t)) : Q a t := by
  have h := h s hs
  rwa [hrun] at h

end Triple

end Call

end BjutEth
