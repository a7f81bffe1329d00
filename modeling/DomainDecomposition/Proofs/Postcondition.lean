import DomainDecomposition.Proofs.Outcome

/-!
# Postconditions with permitted failures

A computation on data that nobody has checked may fail, but only in ways that are meant. `Meets`
says of a checked computation that its result has a property, or that its failure is permitted.
`Update.Meets` says the same of an operation in place, and that the state keeps a property, whether
the operation fails or not. Both follow the structure of a computation: there is a rule for every
way to put computations together.
-/

namespace DomainDecomposition

variable {α β σ : Type} {permitted : Error → Prop}

namespace Outcome

/-- The result has the property, or the failure is permitted. -/
def Meets (permitted : Error → Prop) (Q : α → Prop) : Except Error α → Prop
  | .ok a => Q a
  | .error e => permitted e

/-- The computation succeeds, and its result has the property. -/
abbrev Gives (Q : α → Prop) : Except Error α → Prop :=
  Meets (fun _ => False) Q

variable {P : σ → Prop} {Q Q' : α → Prop} {x : Except Error α}

lemma Gives.exists_eq_ok (h : Gives Q x) : ∃ a, x = .ok a ∧ Q a := by
  cases x with
  | ok a => exact ⟨a, rfl, h⟩
  | error e => exact h.elim

namespace Meets

lemma of_eq_ok {a : α} (found : x = .ok a) (h : Q a) : Meets permitted Q x := by
  rw [found]
  exact h

lemma of_eq_error {e : Error} (failed : x = .error e) (h : permitted e) : Meets permitted Q x := by
  rw [failed]
  exact h

lemma mono (h : Meets permitted Q x) {permitted' : Error → Prop}
    (failures : ∀ e, permitted e → permitted' e) (weaker : ∀ a, Q a → Q' a) :
    Meets permitted' Q' x := by
  cases x with
  | ok a => exact weaker a h
  | error e => exact failures e h

/-- Where the computation has succeeded. -/
lemma result (h : Meets permitted Q x) {a : α} (found : x = .ok a) : Q a := by
  rw [found] at h
  exact h

/-- Only the failures matter. -/
lemma ignore (h : Meets permitted Q x) : Meets permitted (fun _ => True) x :=
  h.mono (fun _ => id) fun _ _ => trivial

/-- Where the computation goes on, it has succeeded. -/
lemma eq_ok (h : Meets permitted Q x) : Meets permitted (fun a => x = .ok a) x := by
  cases x with
  | ok a => rfl
  | error e => exact h

/-- What always succeeds needs no permission to fail. -/
lemma of_gives (h : Gives Q x) : Meets permitted Q x :=
  h.mono (fun _ => False.elim) fun _ => id

lemma bind (h : Meets permitted Q x) {f : α → Except Error β} {Q' : β → Prop}
    (next : ∀ a, Q a → Meets permitted Q' (f a)) : Meets permitted Q' (x >>= f) := by
  cases x with
  | ok a => exact next a h
  | error e => exact h

/-- A check that may fail. -/
lemma check {p : Prop} [Decidable p] {e : Error} (failure : ¬p → permitted e) :
    Meets permitted (fun _ => p) (if p then .ok () else .error e) := by
  split
  · assumption
  · exact failure ‹_›

/-- A property that counts the steps. -/
lemma foldlM_count {P : ℕ → σ → Prop} {xs : List α} {f : σ → α → Except Error σ} {n : ℕ} {s : σ}
    (start : P n s)
    (step : ∀ x ∈ xs, ∀ n s, P n s → Meets permitted (P (n + 1)) (f s x)) :
    Meets permitted (P (n + xs.length)) (xs.foldlM f s) := by
  induction xs generalizing n s with
  | nil => exact start
  | cons x xs ih =>
    obtain ⟨first, rest⟩ := List.forall_mem_cons.mp step
    rw [List.foldlM_cons, List.length_cons, Nat.add_comm xs.length, ← Nat.add_assoc]
    exact (first n s start).bind fun t ht => ih ht rest

/-- What every step keeps, a fold keeps. -/
lemma foldlM {xs : List α} {f : σ → α → Except Error σ} {s : σ} (start : P s)
    (step : ∀ x ∈ xs, ∀ s, P s → Meets permitted P (f s x)) :
    Meets permitted P (xs.foldlM f s) :=
  foldlM_count (P := fun _ => P) (n := 0) start fun x member _ s => step x member s

lemma mapM {xs : List α} {f : α → Except Error β} {Q : α → β → Prop}
    (read : ∀ x ∈ xs, Meets permitted (Q x) (f x)) :
    Meets permitted (fun ys => ∀ y ∈ ys, ∃ x ∈ xs, Q x y) (xs.mapM f) := by
  induction xs with
  | nil => exact fun y hy => absurd hy List.not_mem_nil
  | cons x xs ih =>
    obtain ⟨first, rest⟩ := List.forall_mem_cons.mp read
    rw [List.mapM_cons]
    refine first.bind fun y hy => (ih rest).bind fun ys hys => ?_
    intro z hz
    rcases List.mem_cons.mp hz with rfl | hz
    · exact ⟨x, List.mem_cons_self, hy⟩
    · obtain ⟨x', hx', hz'⟩ := hys z hz
      exact ⟨x', List.mem_cons_of_mem x hx', hz'⟩

lemma forM {xs : List α} {f : α → Except Error Unit} {Q : α → Prop}
    (read : ∀ x ∈ xs, Meets permitted (fun _ => Q x) (f x)) :
    Meets permitted (fun _ => ∀ x ∈ xs, Q x) (xs.forM f) := by
  induction xs with
  | nil => exact fun x hx => absurd hx List.not_mem_nil
  | cons x xs ih =>
    obtain ⟨first, rest⟩ := List.forall_mem_cons.mp read
    change Meets permitted _ (f x >>= fun _ => xs.forM f)
    exact first.bind fun _ hx => (ih rest).mono (fun _ => id) fun _ hxs =>
      List.forall_mem_cons.mpr ⟨hx, hxs⟩

variable {step : σ → ℕ → Except Error σ} {count start : ℕ} {s : σ}

lemma up (first : P s)
    (next : ∀ i s, start ≤ i → i < start + count → P s → Meets permitted P (step s i)) :
    Meets permitted P (Walk.up step count start s) := by
  rw [Walk.up_eq_foldlM]
  refine foldlM first fun i member s => ?_
  rw [List.mem_range'_1] at member
  exact next i s member.1 member.2

lemma down (first : P s)
    (next : ∀ i s, start ≤ i → i < start + count → P s → Meets permitted P (step s i)) :
    Meets permitted P (Walk.down step count start s) := by
  rw [Walk.down_eq_foldlM]
  refine foldlM first fun i member s => ?_
  rw [List.mem_reverse, List.mem_range'_1] at member
  exact next i s member.1 member.2

end Meets

end Outcome

/-! ## Operations in place -/

namespace Update

open Outcome

/-- The state has the property in the end, and the result has its own or the failure is
permitted. -/
def Meets (permitted : Error → Prop) (P : σ → Prop) (Q : α → Prop) (u : Update σ α) (s : σ) : Prop :=
  P (u.on s).2 ∧ Outcome.Meets permitted Q (u.on s).1

namespace Meets

variable {P : σ → Prop} {Q : α → Prop} {Q' : β → Prop} {u : Update σ α} {s : σ}

lemma weaken (h : Meets permitted P Q u s) {P' : σ → Prop} (weaker : ∀ t, P t → P' t) :
    Meets permitted P' Q u s :=
  ⟨weaker _ h.1, h.2⟩

lemma imp (h : Meets permitted P Q u s) {Q' : α → Prop} (weaker : ∀ a, Q a → Q' a) :
    Meets permitted P Q' u s :=
  ⟨h.1, h.2.mono (fun _ => id) weaker⟩

lemma pure (hs : P s) {a : α} (ha : Q a) : Meets permitted P Q (pure a : Update σ α) s :=
  ⟨hs, ha⟩

lemma bind (h : Meets permitted P Q u s) {f : α → Update σ β}
    (next : ∀ a t, Q a → P t → Meets permitted P Q' (f a) t) : Meets permitted P Q' (u >>= f) s := by
  obtain ⟨hs, hresult⟩ := h
  unfold Meets
  rw [on_bind]
  rcases hrun : u.on s with ⟨a | a, t⟩
  · rw [hrun] at hs hresult
    exact ⟨hs, hresult⟩
  · rw [hrun] at hs hresult
    exact next _ t hresult hs

/-- What follows a failure is not run. -/
lemma throw_bind (hs : P s) {e : Error} (failure : permitted e) {f : α → Update σ β} :
    Meets permitted P Q' ((throw e : Update σ α) >>= f) s := by
  unfold Meets
  rw [on_bind]
  exact ⟨hs, failure⟩

lemma get_bind {f : σ → Update σ β} (h : Meets permitted P Q' (f s) s) :
    Meets permitted P Q' (get >>= f) s := by
  unfold Meets
  rwa [on_bind_of_ok (on_get s)]

/-- A computation that does not look at the state. -/
lemma lift_bind {r : Except Error α} {f : α → Update σ β} (hs : P s)
    (h : Outcome.Meets permitted Q r) (next : ∀ a, Q a → Meets permitted P Q' (f a) s) :
    Meets permitted P Q' ((monadLift r : Update σ α) >>= f) s := by
  unfold Meets
  rw [on_bind, on_monadLift]
  cases r with
  | ok a => exact next a h
  | error e => exact ⟨hs, h⟩

lemma lift_bind_ok {r : Except Error α} {a : α} {f : α → Update σ β} (found : r = .ok a)
    (h : Meets permitted P Q' (f a) s) :
    Meets permitted P Q' ((monadLift r : Update σ α) >>= f) s := by
  unfold Meets
  rwa [found, on_bind_of_ok (on_monadLift _ s)]

/-- A replacement that fails leaves the state as it is. -/
lemma replace {f : σ → Except Error σ} (hs : P s) (h : Outcome.Meets permitted P (f s)) :
    Meets permitted P (fun _ => True) (replace f) s := by
  unfold Meets
  rw [on_replace]
  cases hf : f s with
  | ok t =>
    rw [hf] at h
    exact ⟨h, trivial⟩
  | error e =>
    rw [hf] at h
    exact ⟨hs, h⟩

/-- What every step keeps, all steps keep. -/
lemma forM {xs : List α} {f : α → Update σ Unit} (hs : P s)
    (step : ∀ x ∈ xs, ∀ t, P t → Meets permitted P (fun _ => True) (f x) t) :
    Meets permitted P (fun _ => True) (xs.forM f) s := by
  induction xs generalizing s with
  | nil => exact .pure hs trivial
  | cons x xs ih =>
    obtain ⟨first, rest⟩ := List.forall_mem_cons.mp step
    change Meets permitted P _ (f x >>= fun _ => xs.forM f) s
    exact (first s hs).bind fun _ t _ ht => ih ht rest

end Meets

end Update

end DomainDecomposition
