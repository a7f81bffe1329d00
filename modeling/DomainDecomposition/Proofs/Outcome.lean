import DomainDecomposition.Update
import DomainDecomposition.Walk
import Mathlib.Data.Nat.Notation

/-!
# Results of checked computations

A checked computation answers `.ok` or an error. The lemmas below take a successful sequence apart
(`bind_eq_ok`), run a computation whose parts succeed (`ok_bind`, `mapM_eq_ok`), and carry an
invariant through a walk (`Walk.up_spec`, `Walk.down_spec`), a relation through two walks side by
side (`Walk.up_simulates`, `Walk.down_simulates`), or an invariant through the steps of an operation
in place (`Update.forM_range_spec`). `Update.outcome` is what a successful operation in place
leaves.
-/

namespace DomainDecomposition

variable {α β σ : Type}

namespace Outcome

/-! ## Sequences -/

@[simp]
theorem ok_bind (a : α) (f : α → Except Error β) : (Except.ok a >>= f) = f a :=
  rfl

@[simp]
theorem error_bind (e : Error) (f : α → Except Error β) :
    (Except.error e >>= f) = Except.error e :=
  rfl

/-- A sequence succeeds when its steps do, one after the other. -/
theorem bind_eq_ok {x : Except Error α} {f : α → Except Error β} {b : β} :
    (x >>= f) = .ok b ↔ ∃ a, x = .ok a ∧ f a = .ok b := by
  cases x with
  | ok a => simp
  | error e => simp

@[simp]
theorem pure_eq (a : α) : (pure a : Except Error α) = .ok a :=
  rfl

@[simp]
theorem throw_eq (e : Error) : (throw e : Except Error α) = .error e :=
  rfl

/-- A result that is there can be named, whatever stands for a missing one. -/
theorem eq_ok_getD {x : Except Error α} (found : x.toOption.isSome) (default : α) :
    x = .ok (x.toOption.getD default) := by
  cases x with
  | ok a => rfl
  | error e => simp [Except.toOption] at found

/-- A check succeeds when its condition holds. -/
theorem ite_eq_ok {p : Prop} [Decidable p] {e : Error} :
    (if p then .ok () else .error e : Except Error Unit) = .ok () ↔ p := by
  by_cases h : p <;> simp [h]

/-- What follows a check runs when the condition holds. -/
theorem ite_error_eq_ok {p : Prop} [Decidable p] {e : Error} {x : Except Error α} {a : α} :
    (if p then x else .error e) = .ok a ↔ p ∧ x = .ok a := by
  by_cases h : p <;> simp [h]

/-- What follows a rejection runs when the condition fails. -/
theorem error_ite_eq_ok {p : Prop} [Decidable p] {e : Error} {x : Except Error α} {a : α} :
    (if p then .error e else x) = .ok a ↔ ¬p ∧ x = .ok a := by
  by_cases h : p <;> simp [h]

/-- A walk over a list succeeds when every step does. -/
theorem forM_eq_ok {xs : List α} {f : α → Except Error Unit} :
    xs.forM f = .ok () ↔ ∀ x ∈ xs, f x = .ok () := by
  induction xs with
  | nil => simp [List.forM]
  | cons x xs ih =>
    show (f x >>= fun _ => xs.forM f) = _ ↔ _
    rw [bind_eq_ok]
    simp only [ih, List.forall_mem_cons]
    constructor
    · rintro ⟨⟨⟩, hx, hxs⟩
      exact ⟨hx, hxs⟩
    · rintro ⟨hx, hxs⟩
      exact ⟨⟨⟩, hx, hxs⟩

/-- Where every item can be read, all of them can. -/
theorem mapM_eq_ok {xs : List α} {f : α → Except Error β} {g : α → β}
    (h : ∀ x ∈ xs, f x = .ok (g x)) : xs.mapM f = .ok (xs.map g) := by
  induction xs with
  | nil => rfl
  | cons x xs ih =>
    obtain ⟨hx, hxs⟩ := List.forall_mem_cons.mp h
    rw [List.mapM_cons, hx, ok_bind, ih hxs]
    rfl

/-- Where all items could be read, each of them could. -/
theorem eq_map_of_mapM {xs : List α} {f : α → Except Error β} {g : α → β} {ys : List β}
    (h : xs.mapM f = .ok ys) (value : ∀ x ∈ xs, ∀ y, f x = .ok y → y = g x) :
    ys = xs.map g ∧ ∀ x ∈ xs, f x = .ok (g x) := by
  induction xs generalizing ys with
  | nil => exact ⟨(Except.ok.inj h).symm, fun x hx => absurd hx List.not_mem_nil⟩
  | cons x xs ih =>
    rw [List.mapM_cons] at h
    obtain ⟨y, hy, hrest⟩ := bind_eq_ok.mp h
    obtain ⟨ys', hys', hcons⟩ := bind_eq_ok.mp hrest
    obtain ⟨hx, hxs⟩ := List.forall_mem_cons.mp value
    obtain ⟨rfl, hread⟩ := ih hys' hxs
    obtain rfl := hx y hy
    exact ⟨(Except.ok.inj hcons).symm, List.forall_mem_cons.mpr ⟨hy, hread⟩⟩

/-- Reading all items, where some may be missing. -/
theorem mapM_eq_some {xs : List α} {f : α → Option β} {ys : List β} :
    xs.mapM f = some ys ↔ xs.map f = ys.map some := by
  induction xs generalizing ys with
  | nil => cases ys <;> simp
  | cons x xs ih =>
    rw [List.mapM_cons, List.map_cons]
    constructor
    · intro h
      obtain ⟨y, hy, hrest⟩ := Option.bind_eq_some_iff.mp h
      obtain ⟨ys', hys', hcons⟩ := Option.bind_eq_some_iff.mp hrest
      rw [← Option.some.inj hcons, List.map_cons, hy, ih.mp hys']
    · intro h
      cases ys with
      | nil => simp at h
      | cons y ys =>
        obtain ⟨hy, hys⟩ := List.cons.inj h
        rw [hy, ih.mpr hys]
        rfl

/-- What every successful step keeps, a successful fold keeps. -/
theorem foldlM_keeps {xs : List α} {f : σ → α → Except Error σ} {P : σ → Prop} {s s' : σ}
    (run : xs.foldlM f s = .ok s') (start : P s)
    (step : ∀ x ∈ xs, ∀ s s', P s → f s x = .ok s' → P s') : P s' := by
  induction xs generalizing s with
  | nil =>
    obtain rfl := Except.ok.inj run
    exact start
  | cons x xs ih =>
    obtain ⟨hx, hxs⟩ := List.forall_mem_cons.mp step
    rw [List.foldlM_cons] at run
    obtain ⟨t, hfirst, hrest⟩ := bind_eq_ok.mp run
    exact ih hrest (hx s t start hfirst) hxs

end Outcome

/-! ## Walks -/

namespace Walk

open Outcome

/-- An invariant that every step carries from one number to the next, up. -/
theorem up_spec {step : σ → ℕ → Except Error σ} {P : ℕ → σ → Prop} {count start : ℕ} {s : σ}
    (first : P start s)
    (next : ∀ i s, start ≤ i → i < start + count → P i s → ∃ s', step s i = .ok s' ∧ P (i + 1) s') :
    ∃ s', up step count start s = .ok s' ∧ P (start + count) s' := by
  induction count generalizing start s with
  | zero => exact ⟨s, rfl, first⟩
  | succ count ih =>
    obtain ⟨s₁, run₁, keep₁⟩ := next start s (Nat.le_refl _) (by omega) first
    obtain ⟨s₂, run₂, keep₂⟩ := ih keep₁ fun i s low high => next i s (by omega) (by omega)
    refine ⟨s₂, ?_, ?_⟩
    · rw [up, run₁, ok_bind, run₂]
    · rwa [show start + (count + 1) = start + 1 + count by omega]

/-- An invariant that every step carries from one number to the one before it, down. -/
theorem down_spec {step : σ → ℕ → Except Error σ} {P : ℕ → σ → Prop} {count start : ℕ} {s : σ}
    (first : P (start + count) s)
    (next : ∀ i s, start ≤ i → i < start + count → P (i + 1) s → ∃ s', step s i = .ok s' ∧ P i s') :
    ∃ s', down step count start s = .ok s' ∧ P start s' := by
  induction count generalizing s with
  | zero => exact ⟨s, rfl, first⟩
  | succ count ih =>
    obtain ⟨s₁, run₁, keep₁⟩ := next (start + count) s (by omega) (by omega) first
    obtain ⟨s₂, run₂, keep₂⟩ := ih keep₁ fun i s low high => next i s low (by omega)
    refine ⟨s₂, ?_, keep₂⟩
    rw [down, run₁, ok_bind, run₂]

/-- An invariant that every successful step carries on holds after a successful walk up. -/
theorem up_keeps {step : σ → ℕ → Except Error σ} {P : ℕ → σ → Prop} {count start : ℕ} {s s' : σ}
    (run : up step count start s = .ok s') (first : P start s)
    (next : ∀ i s t, start ≤ i → i < start + count → P i s → step s i = .ok t → P (i + 1) t) :
    P (start + count) s' := by
  induction count generalizing start s with
  | zero =>
    obtain rfl := Except.ok.inj run
    exact first
  | succ count ih =>
    rw [up] at run
    obtain ⟨t, hfirst, hrest⟩ := bind_eq_ok.mp run
    have keep := ih hrest (next start s t (Nat.le_refl _) (by omega) first hfirst)
      fun i s t low high => next i s t (by omega) (by omega)
    rwa [show start + (count + 1) = start + 1 + count by omega]

/-- A walk up in two parts. -/
theorem up_add (step : σ → ℕ → Except Error σ) (m n start : ℕ) (s : σ) :
    up step (m + n) start s = up step m start s >>= up step n (start + m) := by
  rw [up_eq_foldlM, up_eq_foldlM, ← List.range'_append_1, List.foldlM_append]
  exact bind_congr fun s => (up_eq_foldlM ..).symm

/-- A walk down in two parts, the upper one first. -/
theorem down_add (step : σ → ℕ → Except Error σ) (m n start : ℕ) (s : σ) :
    down step (m + n) start s = down step n (start + m) s >>= down step m start := by
  rw [down_eq_foldlM, down_eq_foldlM, ← List.range'_append_1, List.reverse_append,
    List.foldlM_append]
  exact bind_congr fun s => (down_eq_foldlM ..).symm

/-- A walk through other numbers, in the same distance from each other. -/
theorem up_shift (step : σ → ℕ → Except Error σ) (o count start : ℕ) (s : σ) :
    up step count (o + start) s = up (fun s i => step s (o + i)) count start s := by
  induction count generalizing start s with
  | zero => rfl
  | succ count ih => simp only [up, Nat.add_assoc, ih]

/-- Two walks up through the same numbers stay related when every pair of steps does. -/
theorem up_simulates {τ : Type} {step : σ → ℕ → Except Error σ} {step' : τ → ℕ → Except Error τ}
    {R : σ → τ → Prop} {count start : ℕ} {s : σ} {t : τ} (first : R s t)
    (next : ∀ i s t, start ≤ i → i < start + count → R s t →
      ∃ s' t', step s i = .ok s' ∧ step' t i = .ok t' ∧ R s' t') :
    ∃ s' t', up step count start s = .ok s' ∧ up step' count start t = .ok t' ∧ R s' t' := by
  induction count generalizing start s t with
  | zero => exact ⟨s, t, rfl, rfl, first⟩
  | succ count ih =>
    obtain ⟨s₁, t₁, run, run', related⟩ := next start s t (Nat.le_refl _) (by omega) first
    obtain ⟨s₂, t₂, rest, rest', related'⟩ :=
      @ih (start + 1) s₁ t₁ related fun i s t low high => next i s t (by omega) (by omega)
    exact ⟨s₂, t₂, by rw [up, run, ok_bind, rest], by rw [up, run', ok_bind, rest'], related'⟩

/-- Two walks down through the same numbers stay related when every pair of steps does. -/
theorem down_simulates {τ : Type} {step : σ → ℕ → Except Error σ} {step' : τ → ℕ → Except Error τ}
    {R : σ → τ → Prop} {count start : ℕ} {s : σ} {t : τ} (first : R s t)
    (next : ∀ i s t, start ≤ i → i < start + count → R s t →
      ∃ s' t', step s i = .ok s' ∧ step' t i = .ok t' ∧ R s' t') :
    ∃ s' t', down step count start s = .ok s' ∧ down step' count start t = .ok t' ∧ R s' t' := by
  induction count generalizing s t with
  | zero => exact ⟨s, t, rfl, rfl, first⟩
  | succ count ih =>
    obtain ⟨s₁, t₁, run, run', related⟩ := next (start + count) s t (by omega) (by omega) first
    obtain ⟨s₂, t₂, rest, rest', related'⟩ :=
      ih related fun i s t low high => next i s t low (by omega)
    exact ⟨s₂, t₂, by rw [down, run, ok_bind, rest], by rw [down, run', ok_bind, rest'], related'⟩

/-- Where every number can be read, the walk lists what is read. -/
theorem collect_eq_ok {read : ℕ → Except Error α} {f : ℕ → α} {count start : ℕ}
    (h : ∀ k, start ≤ k → k < start + count → read k = .ok (f k)) :
    collect read count start = .ok ((List.range' start count).map f) := by
  rw [collect_eq_mapM]
  refine mapM_eq_ok fun k hk => ?_
  rw [List.mem_range'_1] at hk
  exact h k hk.1 hk.2

end Walk

/-! ## Operations in place -/

namespace Update

/-- Taking a successful sequence of two operations apart. -/
theorem on_bind_eq_ok {u : Update σ α} {f : α → Update σ β} {s s' : σ} {b : β}
    (run : (u >>= f).on s = (.ok b, s')) :
    ∃ a t, u.on s = (.ok a, t) ∧ (f a).on t = (.ok b, s') := by
  rw [on_bind] at run
  rcases h : u.on s with ⟨a | a, t⟩
  · rw [h] at run
    simp at run
  · rw [h] at run
    exact ⟨a, t, rfl, run⟩

/-- The second operation runs from where a successful first one has left the state. -/
theorem on_bind_of_ok {u : Update σ α} {f : α → Update σ β} {s t : σ} {a : α}
    (run : u.on s = (.ok a, t)) : (u >>= f).on s = (f a).on t := by
  rw [on_bind, run]

/-- The state after an operation that answers nothing, unless it fails. -/
def outcome (u : Update σ Unit) (s : σ) : Except Error σ :=
  (u.on s).1.map fun _ => (u.on s).2

theorem outcome_replace (f : σ → Except Error σ) (s : σ) : (replace f).outcome s = f s := by
  rw [outcome, on_replace]
  cases f s <;> rfl

theorem outcome_congr {u v : Update σ Unit} {s : σ} (h : u.on s = v.on s) :
    u.outcome s = v.outcome s := by
  rw [outcome, outcome, h]

theorem outcome_bind (u v : Update σ Unit) (s : σ) :
    (u >>= fun _ => v).outcome s = u.outcome s >>= v.outcome := by
  rw [outcome, outcome, on_bind]
  rcases u.on s with ⟨_ | _, t⟩ <;> rfl

/-- The last step comes after the others. -/
theorem forM_range_succ (n : ℕ) (step : ℕ → Update σ Unit) :
    (List.range (n + 1)).forM step = ((List.range n).forM step >>= fun _ => step n) := by
  rw [List.range_succ]
  show forM (List.range n ++ [n]) step = _
  rw [List.forM_append]
  simp

/-- An invariant that every successful step carries on holds after a successful run of all steps. -/
theorem forM_range_spec {n : ℕ} {step : ℕ → Update σ Unit} {P : ℕ → σ → Prop} {s s' : σ}
    (first : P 0 s)
    (next : ∀ i s t, i < n → P i s → (step i).on s = (.ok (), t) → P (i + 1) t)
    (run : ((List.range n).forM step).on s = (.ok (), s')) : P n s' := by
  induction n generalizing s' with
  | zero =>
    have hs : s = s' := by
      simpa [List.forM] using congrArg Prod.snd run
    rwa [← hs]
  | succ n ih =>
    rw [forM_range_succ] at run
    obtain ⟨_, t, run₁, run₂⟩ := on_bind_eq_ok run
    have keep := ih (fun i s t hi => next i s t (by omega)) run₁
    exact next n t s' (by omega) keep run₂

/-- A run that fails has a step that fails after all steps before have succeeded. -/
theorem forM_range_eq_error {n : ℕ} {step : ℕ → Update σ Unit} {s s' : σ} {e : Error}
    (run : ((List.range n).forM step).on s = (.error e, s')) :
    ∃ r < n, ∃ t, ((List.range r).forM step).on s = (.ok (), t) ∧
      (step r).on t = (.error e, s') := by
  induction n with
  | zero =>
    have impossible : (Except.ok () : Except Error Unit) = .error e := congrArg Prod.fst run
    cases impossible
  | succ n ih =>
    rw [forM_range_succ, on_bind] at run
    rcases before : ((List.range n).forM step).on s with ⟨e' | ⟨⟩, t⟩
    · rw [before] at run
      obtain ⟨r, hr, found⟩ := ih (before.trans run)
      exact ⟨r, Nat.lt_succ_of_lt hr, found⟩
    · rw [before] at run
      exact ⟨n, Nat.lt_succ_self n, t, before, run⟩

end Update

end DomainDecomposition
