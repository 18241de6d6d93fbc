import Mathlib

namespace BjutEth

open List

/-- How a Go call fails to return a value: it returns an error, it panics,
or it runs forever. -/
inductive Stop (ε : Type)
  | err (e : ε)
  | panic
  | hang
  deriving DecidableEq, Repr

abbrev Outcome (ε α : Type) := Except (Stop ε) α

namespace Outcome

variable {ε α β σ : Type}

variable {b : β} {P : α → Prop} {Q : β → Prop} {a : α} {s : σ} {γ : Type} {R : α → β → Prop} {x : Outcome ε α}

theorem bind_eq_ok {f : α → Outcome ε β} :
    x >>= f = .ok b ↔ ∃ a, x = .ok a ∧ f a = .ok b := by
  cases x with
  | error e =>
    refine ⟨fun h ↦ (by cases h), ?_⟩
    rintro ⟨_, h, -⟩
    cases h
  | ok a =>
    refine ⟨fun h ↦ ⟨a, rfl, h⟩, ?_⟩
    rintro ⟨_, h, h'⟩
    cases h
    exact h'

theorem unit_bind_eq_ok {x : Outcome ε Unit} {f : Unit → Outcome ε β} :
    x >>= f = .ok b ↔ x = .ok () ∧ f () = .ok b :=
  bind_eq_ok.trans Unique.exists_iff

theorem map_eq_ok {f : α → β} : x.map f = .ok b ↔ ∃ a, x = .ok a ∧ f a = b := by
  cases x with
  | error e =>
    refine ⟨fun h ↦ (by cases h), ?_⟩
    rintro ⟨_, h, -⟩
    cases h
  | ok a =>
    refine ⟨fun h ↦ ⟨a, rfl, Except.ok.inj h⟩, ?_⟩
    rintro ⟨_, h, rfl⟩
    cases h
    rfl

theorem exists_of_isOk (h : x.isOk = true) : ∃ a, x = .ok a := by
  cases x with
  | error e => cases h
  | ok a => exact ⟨a, rfl⟩

theorem exists_ok_iff : P a ↔ ∃ b, (.ok a : Outcome ε α) = .ok b ∧ P b := by
  refine ⟨fun h ↦ ⟨a, rfl, h⟩, ?_⟩
  rintro ⟨_, h, h'⟩
  cases h
  exact h'

theorem exists_ok_imp {Q : α → Prop} (h : ∃ a, x = .ok a ∧ P a)
    (hQ : ∀ a, x = .ok a → P a → Q a) : ∃ a, x = .ok a ∧ Q a := by
  obtain ⟨a, ha, hP⟩ := h
  exact ⟨a, ha, hQ a ha hP⟩

theorem not_exists_ok (e : Stop ε) : ¬ ∃ b, (.error e : Outcome ε α) = .ok b ∧ P b := by
  rintro ⟨_, h, -⟩
  cases h

/-- What a call returns can be computed, so properties of it can be tested. -/
instance decidableExistsOk [DecidablePred P] : (x : Outcome ε α) → Decidable (∃ a, x = .ok a ∧ P a)
  | .ok _ => decidable_of_iff _ exists_ok_iff
  | .error e => isFalse (not_exists_ok e)

theorem exists_some_iff : P a ↔ ∃ b, some a = some b ∧ P b :=
  ⟨fun h ↦ ⟨a, rfl, h⟩, fun h ↦ Option.some.inj h.choose_spec.1 ▸ h.choose_spec.2⟩

theorem not_exists_some : ¬ ∃ b, none = some b ∧ P b := by
  rintro ⟨_, h, -⟩
  cases h

instance decidableExistsSome [DecidablePred P] : (x : Option α) → Decidable (∃ a, x = some a ∧ P a)
  | some _ => decidable_of_iff _ exists_some_iff
  | none => isFalse not_exists_some

/-- Partial correctness: a value that is returned satisfies `P`. -/
def Ensures (x : Outcome ε α) (P : α → Prop) : Prop := ∀ a, x = .ok a → P a

/-- Total up to errors: the call returns a value that satisfies `P` or an
error; it neither panics nor runs forever. -/
def Safe (x : Outcome ε α) (P : α → Prop) : Prop :=
  match x with
  | .ok a => P a
  | .error (.err _) => True
  | .error .panic | .error .hang => False

theorem Ensures.bind {f : α → Outcome ε β} (hx : Ensures x P)
    (hf : ∀ a, P a → Ensures (f a) Q) : Ensures (x >>= f) Q := by
  intro b hb
  obtain ⟨a, ha, hb⟩ := bind_eq_ok.mp hb
  exact hf a (hx a ha) b hb

theorem Ensures.ok (h : P a) : Ensures (.ok a : Outcome ε α) P :=
  fun _ ha ↦ Except.ok.inj ha ▸ h

theorem Ensures.bind_any {f : α → Outcome ε β} (hf : ∀ a, Ensures (f a) Q) :
    Ensures (x >>= f) Q :=
  Ensures.bind (P := fun _ ↦ True) (fun _ _ ↦ trivial) (fun a _ ↦ hf a)

theorem Ensures.bind_of_ok {f : α → Outcome ε β} (hx : x = .ok a) (hf : Ensures (f a) Q) :
    Ensures (x >>= f) Q := by
  rw [hx]
  exact hf

theorem Ensures.foldlM {f : σ → α → Outcome ε σ} {P : σ → Prop} (l : List α) (hs : P s)
    (hf : ∀ s, P s → ∀ a ∈ l, Ensures (f s a) P) : Ensures (l.foldlM f s) P := by
  induction l generalizing s with
  | nil => intro t ht; cases ht; exact hs
  | cons a l ih =>
    refine Ensures.bind (hf s hs a mem_cons_self) (fun t ht ↦ ?_)
    exact ih ht (fun u hu b hb ↦ hf u hu b (mem_cons_of_mem a hb))

/-- The call does not return the error `e`. -/
def Avoids (x : Outcome ε α) (e : ε) : Prop := x ≠ .error (.err e)

theorem Avoids.bind {f : α → Outcome ε β} {e : ε} (hx : Avoids x e)
    (hf : ∀ a, x = .ok a → Avoids (f a) e) : Avoids (x >>= f) e := by
  cases x with
  | error e' => exact fun h ↦ hx (by cases h; rfl)
  | ok a => exact hf a rfl

theorem Avoids.foldlM {f : σ → α → Outcome ε σ} {l : List α} {e : ε}
    (hf : ∀ s, ∀ a ∈ l, Avoids (f s a) e) (s : σ) : Avoids (l.foldlM f s) e := by
  induction l generalizing s with
  | nil => exact fun h ↦ (by cases h)
  | cons a l ih =>
    exact (hf s a mem_cons_self).bind
      (fun t _ ↦ ih (fun s b hb ↦ hf s b (mem_cons_of_mem a hb)) t)

/-- The call returns no error, though it may panic or run forever. -/
def NoErr (x : Outcome ε α) : Prop := ∀ e, Avoids x e

theorem NoErr.ok (a : α) : NoErr (.ok a : Outcome ε α) := fun _ h ↦ (by cases h)

theorem NoErr.bind {f : α → Outcome ε β} (hx : NoErr x)
    (hf : ∀ a, NoErr (f a)) : NoErr (x >>= f) := fun e ↦ (hx e).bind (fun a _ ↦ hf a e)

theorem NoErr.foldlM {f : σ → α → Outcome ε σ} {l : List α} (hf : ∀ s, ∀ a ∈ l, NoErr (f s a))
    (s : σ) : NoErr (l.foldlM f s) := fun e ↦ Avoids.foldlM (fun s a ha ↦ hf s a ha e) s

theorem foldlM_single {f : σ → α → Outcome ε σ} {t : σ} (h : f s a = .ok t) : [a].foldlM f s = .ok t := by
  rw [foldlM_cons, h]
  rfl

theorem foldlM_keeps (f : σ → α → Outcome ε σ) (g : σ → γ) (hf : ∀ s a t, f s a = .ok t → g t = g s)
    (l : List α) {t : σ} (h : l.foldlM f s = .ok t) : g t = g s := by
  induction l generalizing s with
  | nil => cases h; rfl
  | cons a l ih =>
    obtain ⟨u, hu, ht⟩ := bind_eq_ok.mp h
    exact (ih ht).trans (hf s a u hu)

theorem foldl_keeps (f : σ → α → σ) (g : σ → γ) (hf : ∀ s a, g (f s a) = g s) (l : List α) (s : σ) :
    g (l.foldl f s) = g s := by
  induction l generalizing s with
  | nil => rfl
  | cons a l ih => exact (ih (f s a)).trans (hf s a)

theorem Safe.bind {f : α → Outcome ε β} (hx : Safe x P) (hf : ∀ a, P a → Safe (f a) Q) :
    Safe (x >>= f) Q := by
  match x, hx with
  | .ok a, ha => exact hf a ha
  | .error (.err _), _ => trivial

theorem Safe.mono {Q : α → Prop} (hx : Safe x P) (h : ∀ a, P a → Q a) : Safe x Q := by
  match x, hx with
  | .ok a, ha => exact h a ha
  | .error (.err _), _ => trivial

theorem Safe.foldlM {f : σ → α → Outcome ε σ} {P : σ → Prop} (l : List α) (hs : P s)
    (hf : ∀ s, P s → ∀ a ∈ l, Safe (f s a) P) : Safe (l.foldlM f s) P := by
  induction l generalizing s with
  | nil => exact hs
  | cons a l ih =>
    refine Safe.bind (hf s hs a mem_cons_self) (fun t ht ↦ ?_)
    exact ih ht (fun u hu b hb ↦ hf u hu b (mem_cons_of_mem a hb))

/-- The call panics exactly under a condition, and returns a value otherwise. -/
structure PanicsIff (x : Outcome ε α) (c : Prop) : Prop where
  panics : c → x = .error .panic
  returns : ¬ c → ∃ a, x = .ok a

namespace PanicsIff

variable {f : α → Outcome ε β} {c d : Prop}

theorem ok (a : α) : PanicsIff (.ok a : Outcome ε α) False := ⟨False.elim, fun _ ↦ ⟨a, rfl⟩⟩

theorem congr (h : PanicsIff x c) (hcd : d ↔ c) : PanicsIff x d :=
  ⟨fun hd ↦ h.panics (hcd.mp hd), fun hd ↦ h.returns (fun hc ↦ hd (hcd.mpr hc))⟩

theorem bind_of_ok (hx : x = .ok a) (hf : PanicsIff (f a) c) : PanicsIff (x >>= f) c := by
  rw [hx]
  exact hf

theorem bind_of_panic (hx : x = .error .panic) : PanicsIff (x >>= f) True := by
  rw [hx]
  exact ⟨fun _ ↦ rfl, fun h ↦ absurd trivial h⟩

theorem bind_pure {g : α → β} (h : PanicsIff x c) : PanicsIff (x >>= fun a ↦ pure (g a)) c := by
  refine ⟨fun hc ↦ ?_, fun hc ↦ ?_⟩
  · rw [h.panics hc]
    rfl
  · obtain ⟨a, ha⟩ := h.returns hc
    exact ⟨g a, by rw [ha]; rfl⟩

/-- A loop panics where one of its rounds does, in the state it is reached in. -/
theorem foldlM {f : σ → α → Outcome ε σ} {c : σ → α → Prop} (h : ∀ s a, PanicsIff (f s a) (c s a))
    (l : List α) (s : σ) : PanicsIff (l.foldlM f s)
      (∃ done a todo t, l = done ++ a :: todo ∧ done.foldlM f s = .ok t ∧ c t a) := by
  induction l generalizing s with
  | nil =>
    refine (PanicsIff.ok s).congr ⟨?_, False.elim⟩
    rintro ⟨done, a, todo, t, hl, -⟩
    cases done <;> cases hl
  | cons b l ih =>
    by_cases hb : c s b
    · refine (bind_of_panic ((h s b).panics hb)).congr ⟨fun _ ↦ trivial, fun _ ↦ ?_⟩
      exact ⟨[], b, l, s, rfl, rfl, hb⟩
    obtain ⟨u, hu⟩ := (h s b).returns hb
    refine (bind_of_ok hu (ih u)).congr ⟨?_, ?_⟩
    · rintro ⟨done, a, todo, t, hl, ht, ha⟩
      cases done with
      | nil =>
        obtain ⟨rfl, rfl⟩ := List.cons.inj hl
        cases ht
        exact absurd ha hb
      | cons b' done =>
        obtain ⟨rfl, rfl⟩ := List.cons.inj hl
        rw [foldlM_cons, hu] at ht
        exact ⟨done, a, todo, t, rfl, ht, ha⟩
    rintro ⟨done, a, todo, t, rfl, ht, ha⟩
    refine ⟨b :: done, a, todo, t, rfl, ?_, ha⟩
    rw [foldlM_cons, hu]
    exact ht

end PanicsIff

theorem bind_map (x : Outcome ε α) (f : α → β) (g : β → Outcome ε γ) :
    x.map f >>= g = x >>= fun a ↦ g (f a) := by
  cases x <;> rfl

theorem map_bind (x : Outcome ε α) (f : α → Outcome ε β) (g : β → γ) :
    (x >>= f).map g = x >>= fun a ↦ (f a).map g := by
  cases x <;> rfl

theorem foldlM_comm {f : σ → α → Outcome ε σ} {g : σ → σ} (hf : ∀ s a, f (g s) a = (f s a).map g)
    (l : List α) (s : σ) : l.foldlM f (g s) = (l.foldlM f s).map g := by
  induction l generalizing s with
  | nil => rfl
  | cons a l ih =>
    rw [foldlM_cons, foldlM_cons, hf, bind_map, map_bind]
    congr 1
    funext t
    exact ih t

/-- A call with loops returns `a`: it does so for every number of rounds that is large enough. -/
def Returns (f : ℕ → Outcome ε α) (a : α) : Prop := ∃ n, ∀ fuel, n ≤ fuel → f fuel = .ok a

theorem Returns.unique {f : ℕ → Outcome ε α} {b : α} (ha : Returns f a) (hb : Returns f b) : a = b := by
  obtain ⟨n, ha⟩ := ha
  obtain ⟨m, hb⟩ := hb
  have h := (ha (max n m) (le_max_left n m)).symm.trans (hb (max n m) (le_max_right n m))
  exact Except.ok.inj h

end Outcome

end BjutEth
