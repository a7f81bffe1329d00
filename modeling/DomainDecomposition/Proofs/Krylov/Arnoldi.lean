import DomainDecomposition.Proofs.Krylov.Course
import DomainDecomposition.Proofs.Krylov.Frame
import DomainDecomposition.Proofs.Krylov.InnerProduct

/-!
# One step of a cycle in exact arithmetic

A single process solves with a linear operator. It may keep a state, and its preconditioner may
answer anything: it may depend on the state, on the vector and on what came before.

* `Always`: what every result of an action satisfies, from all states,
* `Possible`: what some result of an action is,
* `Represents`: a system whose operator is a linear map,
* `project_spec`: a projection splits a vector into its components along the basis and a rest that
  is orthogonal to it,
* `probe_spec`: what a step finds.
-/

namespace DomainDecomposition

open scoped InnerProductSpace

/-! ## Actions of a single process -/

section Always

variable {σ α β : Type}

/-- Every result of an action satisfies `Q`, from whichever state the action starts. -/
def Always (Q : α → Prop) (c : StateM σ α) : Prop :=
  ∀ s, Q (Id.run (c.run s)).1

/-- Some state makes the action answer `a`. -/
def Possible (c : StateM σ α) (a : α) : Prop :=
  ∃ s, (Id.run (c.run s)).1 = a

/-- Whatever an action answers, it can answer. -/
lemma Always.and_possible {Q : α → Prop} {c : StateM σ α} (h : Always Q c) :
    Always (fun a => Q a ∧ Possible c a) c :=
  fun s => ⟨h s, s, rfl⟩

lemma Always.pure {Q : α → Prop} {a : α} (ha : Q a) : Always Q (Pure.pure a : StateM σ α) :=
  fun _ => ha

lemma Always.bind {Q : α → Prop} {Q' : β → Prop} {c : StateM σ α} {f : α → StateM σ β}
    (first : Always Q c) (second : ∀ a, Q a → Always Q' (f a)) : Always Q' (c >>= f) :=
  fun s => second _ (first s) (Id.run (c.run s)).2

lemma Always.ite {Q : α → Prop} {p : Prop} [Decidable p] {c d : StateM σ α}
    (yes : p → Always Q c) (no : ¬ p → Always Q d) : Always Q (if p then c else d) := by
  split
  · exact yes ‹_›
  · exact no ‹_›

end Always

/-! ## Points of vectors -/

section Points

variable {𝕜 : Type} [RCLike 𝕜] {n : ℕ}

lemma point_sub_mul {v w : Array 𝕜} (hv : v.size = n) (hw : w.size = n) (h : 𝕜) :
    point n (Array.zipWith (fun wk vk => wk - h * vk) w v) = point n w - h • point n v := by
  ext i
  rw [point_zipWith_apply hw hv]
  rfl

lemma point_add_mul {x z : Array 𝕜} (hx : x.size = n) (hz : z.size = n) (y : 𝕜) :
    point n (Array.zipWith (fun xi zi => xi + y * zi) x z) = point n x + y • point n z := by
  ext i
  rw [point_zipWith_apply hx hz]
  rfl

lemma point_sub {b y : Array 𝕜} (hb : b.size = n) (hy : y.size = n) :
    point n (Array.zipWith (fun p q => q - p) y b) = point n b - point n y := by
  ext i
  rw [point_zipWith_apply hy hb]
  rfl

lemma point_scaled (factor : ℝ) (v : Array 𝕜) :
    point n (Gmres.scaled factor v) = (factor : 𝕜) • point n v := by
  ext i
  by_cases hi : i.val < v.size
  · simp [point, Gmres.scaled, Array.getD, hi, Scalar.ofReal_exact, mul_comm,
      RCLike.real_smul_eq_coe_mul]
  · simp [point, Gmres.scaled, Array.getD, hi]

/-- Multiples of vectors are added one after the other. -/
lemma point_foldl_add_mul {zs : List (Array 𝕜)} (sizes : ∀ z ∈ zs, z.size = n) {ys : List 𝕜}
    (length : ys.length = zs.length) {x : Array 𝕜} (hx : x.size = n) :
    let sum := (ys.zip zs).foldl
      (fun x (y, z) => Array.zipWith (fun xi zi => xi + y * zi) x z) x
    sum.size = n ∧ point n sum = point n x +
      ∑ j ∈ Finset.range zs.length, ys.getD j 0 • point n (zs.getD j #[]) := by
  induction zs generalizing ys x with
  | nil => simpa using hx
  | cons z zs ih =>
    obtain ⟨hz, hzs⟩ := List.forall_mem_cons.mp sizes
    obtain ⟨y, ys, rfl⟩ := List.exists_cons_of_length_eq_add_one length
    obtain ⟨hsize, hsum⟩ := ih hzs (Nat.succ.inj length)
      (x := Array.zipWith (fun xi zi => xi + y * zi) x z) (by simp [hx, hz])
    refine ⟨hsize, hsum.trans ?_⟩
    rw [point_add_mul hx hz, List.length_cons, Finset.sum_range_succ']
    simp only [List.getD_cons_succ, List.getD_cons_zero]
    abel

end Points

namespace Gmres

variable {σ 𝕜 : Type} [RCLike 𝕜] {n : ℕ}

/-- A system of one process whose operator is a linear map. The preconditioner, if there is one,
answers vectors of the right length. -/
structure Represents (system : LinearSystem (StateM σ) 𝕜 ℝ)
    (A : EuclideanSpace 𝕜 (Fin n) →ₗ[𝕜] EuclideanSpace 𝕜 (Fin n)) : Prop where
  operator : ∀ x old, x.size = n → old.size = n →
    Always (fun y => y.size = n ∧ point n y = A (point n x)) (system.operator x old)
  precondition : ∀ p ∈ system.precondition, ∀ v old, v.size = n → old.size = n →
    Always (fun z => z.size = n) (p v old)
  reduce : ∀ values, Always (· = values) (system.reduce values)

/-- A process on its own that applies a linear map, without a preconditioner. -/
noncomputable def alone (m : Type → Type) [Monad m]
    (A : EuclideanSpace 𝕜 (Fin n) →ₗ[𝕜] EuclideanSpace 𝕜 (Fin n)) : LinearSystem m 𝕜 ℝ where
  operator x _ := pure (coordinates (A (point n x)))
  precondition := none
  reduce := pure

variable {system : LinearSystem (StateM σ) 𝕜 ℝ}
  {A : EuclideanSpace 𝕜 (Fin n) →ₗ[𝕜] EuclideanSpace 𝕜 (Fin n)}

namespace Represents

lemma dot (represents : Represents system A) {x y : Array 𝕜} (hx : x.size = n) (hy : y.size = n) :
    Always (· = ⟪point n x, point n y⟫_𝕜) (InnerProduct.dot system.reduce x y) := by
  rw [InnerProduct.dot_eq]
  refine (represents.reduce _).bind fun sums hsums => .pure ?_
  rw [hsums, InnerProduct.ofSums_parts, inner_point hx hy]

lemma norm (represents : Represents system A) {x : Array 𝕜} (hx : x.size = n) :
    Always (· = ‖point n x‖) (InnerProduct.norm system.reduce x) := by
  refine (represents.reduce _).bind fun sums hsums => .pure ?_
  rw [hsums, norm_point hx]
  rfl

lemma residual (represents : Represents system A) {b x old : Array 𝕜} (hb : b.size = n)
    (hx : x.size = n) (hold : old.size = n) :
    Always (fun r => r.size = n ∧ point n r = point n b - A (point n x))
      (residual system b x old) := by
  refine (represents.operator x old hx hold).bind fun y ⟨hy, hpoint⟩ => .pure ⟨?_, ?_⟩
  · simp [hb, hy]
  · rw [point_sub hb hy, hpoint]

lemma direct (represents : Represents system A) {v old : Array 𝕜} (hv : v.size = n)
    (hold : old.size = n) : Always (fun z => z.size = n) (direct system v old) := by
  cases h : system.precondition with
  | none => simpa only [Gmres.direct, h] using .pure hv
  | some p => simpa only [Gmres.direct, h] using represents.precondition p h v old hv hold

end Represents

/-! ## Projections -/

/-- A vector `w` is split into components along the vectors `vs` and a rest that is orthogonal to
them. -/
structure Split (n : ℕ) (vs : List (Array 𝕜)) (w : Array 𝕜) (parts : List 𝕜 × Array 𝕜) : Prop where
  length : parts.1.length = vs.length
  size : parts.2.size = n
  sum : point n w = ∑ i ∈ Finset.range vs.length, parts.1.getD i 0 • point n (vs.getD i #[]) +
    point n parts.2
  orthogonal : ∀ i < vs.length, ⟪point n (vs.getD i #[]), point n parts.2⟫_𝕜 = 0

lemma Split.nil {w : Array 𝕜} (hw : w.size = n) : Split n [] w ([], w) where
  length := rfl
  size := hw
  sum := by simp
  orthogonal _ hi := absurd hi (Nat.not_lt_zero _)

/-- The component along one more vector is taken out first. -/
lemma Split.cons {v : Array 𝕜} {vs : List (Array 𝕜)} {w : Array 𝕜} {parts : List 𝕜 × Array 𝕜}
    (hv : v.size = n) (hw : w.size = n)
    (frame : Frame 𝕜 (vs.length + 1) fun i => point n ((v :: vs).getD i #[]))
    (split : Split n vs
      (Array.zipWith (fun wk vk => wk - ⟪point n v, point n w⟫_𝕜 * vk) w v) parts) :
    Split n (v :: vs) w (⟪point n v, point n w⟫_𝕜 :: parts.1, parts.2) where
  length := congrArg (· + 1) split.length
  size := split.size
  sum := by
    have hsum := split.sum
    rw [point_sub_mul hv hw] at hsum
    rw [List.length_cons, Finset.sum_range_succ']
    simp only [List.getD_cons_succ, List.getD_cons_zero]
    rw [add_right_comm, ← hsum, sub_add_cancel]
  orthogonal i hi := by
    cases i with
    | succ i => simpa using split.orthogonal i (Nat.lt_of_succ_lt_succ hi)
    | zero =>
      have hunit : ⟪point n v, point n v⟫_𝕜 = 1 := by
        simpa using frame 0 (Nat.succ_pos _) 0 (Nat.succ_pos _)
      have hothers : ⟪point n v, ∑ i ∈ Finset.range vs.length,
          parts.1.getD i 0 • point n (vs.getD i #[])⟫_𝕜 = 0 := by
        rw [inner_sum]
        refine Finset.sum_eq_zero fun i hi => ?_
        have hzero : ⟪point n v, point n (vs.getD i #[])⟫_𝕜 = 0 := by
          simpa using frame 0 (Nat.succ_pos _) (i + 1)
            (Nat.succ_lt_succ (Finset.mem_range.mp hi))
        rw [inner_smul_right, hzero, mul_zero]
      -- the product with `v` was taken out first, and the other vectors have not put any back
      have hsum := congrArg (⟪point n v, ·⟫_𝕜) split.sum
      simp only [point_sub_mul hv hw, inner_sub_right, inner_smul_right, inner_add_right, hunit,
        hothers, mul_one, sub_self, zero_add] at hsum
      exact hsum.symm

/-- The vectors are orthonormal, so taking out one component after the other leaves none of them. -/
lemma project_spec (represents : Represents system A) {vs : List (Array 𝕜)}
    (sizes : ∀ v ∈ vs, v.size = n) (frame : Frame 𝕜 vs.length fun i => point n (vs.getD i #[]))
    {w : Array 𝕜} (hw : w.size = n) : Always (Split n vs w) (project system vs w) := by
  induction vs generalizing w with
  | nil => exact .pure (.nil hw)
  | cons v vs ih =>
    obtain ⟨hv, hvs⟩ := List.forall_mem_cons.mp sizes
    have hframe : Frame 𝕜 vs.length fun i => point n (vs.getD i #[]) := by
      intro i hi j hj
      simpa using frame (i + 1) (Nat.succ_lt_succ hi) (j + 1) (Nat.succ_lt_succ hj)
    refine (represents.dot hv hw).bind fun h hh => ?_
    subst hh
    refine (ih hvs hframe (by simp [hw, hv])).bind fun parts split => .pure ?_
    exact .cons hv hw frame split

/-! ## Steps -/

/-- Basis vector `i` of a cycle. -/
def Cycle.vector (n : ℕ) (cycle : Cycle 𝕜 ℝ) (i : ℕ) : EuclideanSpace 𝕜 (Fin n) :=
  point n (cycle.basis.toList.getD i #[])

/-- What a step finds: the components of the image of the direction along the basis, and what is
left of it. -/
structure Found (A : EuclideanSpace 𝕜 (Fin n) →ₗ[𝕜] EuclideanSpace 𝕜 (Fin n))
    (s : Stride 𝕜 ℝ) : Prop where
  direction : s.direction.size = n
  components : s.components.length = s.cycle.basis.size
  remainder : s.remainder.size = n
  rest : s.rest = ‖point n s.remainder‖
  image : A (point n s.direction) = ∑ i ∈ Finset.range s.cycle.basis.size,
    s.components.getD i 0 • s.cycle.vector n i + point n s.remainder
  orthogonal : ∀ i < s.cycle.basis.size, ⟪s.cycle.vector n i, point n s.remainder⟫_𝕜 = 0

/-- A step of a cycle: the preconditioner has answered its direction to the newest basis vector. -/
structure Stepped (system : LinearSystem (StateM σ) 𝕜 ℝ)
    (A : EuclideanSpace 𝕜 (Fin n) →ₗ[𝕜] EuclideanSpace 𝕜 (Fin n)) (s : Stride 𝕜 ℝ) : Prop
    extends Found A s where
  preconditioned : ∃ v, s.cycle.basis.back? = some v ∧
    Possible (Gmres.direct system v (Array.replicate n 0)) s.direction

/-- Projecting twice takes out the sum of both components. -/
lemma Split.trans {vs : List (Array 𝕜)} {w : Array 𝕜} {first second : List 𝕜 × Array 𝕜}
    (h : Split n vs w first) (h' : Split n vs first.2 second) :
    Split n vs w (List.zipWith (fun p q => 0 + p + q) first.1 second.1, second.2) where
  length := by simp [h.length, h'.length]
  size := h'.size
  sum := by
    have hentry : ∀ i ∈ Finset.range vs.length,
        (List.zipWith (fun p q => 0 + p + q) first.1 second.1).getD i 0 • point n (vs.getD i #[]) =
        first.1.getD i 0 • point n (vs.getD i #[]) +
          second.1.getD i 0 • point n (vs.getD i #[]) := by
      intro i hi
      rw [Finset.mem_range] at hi
      rw [← add_smul]
      congr 1
      simp [List.getD_eq_getElem?_getD, h.length, h'.length, hi]
    rw [Finset.sum_congr rfl hentry, Finset.sum_add_distrib, add_assoc, ← h'.sum, ← h.sum]
  orthogonal := h'.orthogonal

lemma probe_spec (represents : Represents system A) {cycle : Cycle 𝕜 ℝ}
    (nonempty : 0 < cycle.basis.size) (sizes : ∀ v ∈ cycle.basis, v.size = n)
    (frame : Frame 𝕜 cycle.basis.size (cycle.vector n)) :
    Always (fun s => s.cycle = cycle ∧ Stepped system A s) (probe system n cycle) := by
  obtain ⟨v, hv⟩ : ∃ v, cycle.basis.back? = some v :=
    ⟨_, Array.back?_eq_getElem?.trans (Array.getElem?_eq_getElem (Nat.sub_one_lt_of_lt nonempty))⟩
  have hsize : v.size = n := sizes v (Array.mem_of_back? hv)
  have hsizes : ∀ v ∈ cycle.basis.toList, v.size = n := fun v hv => sizes v (Array.mem_def.mpr hv)
  have hzeros : (Array.replicate n (0 : 𝕜)).size = n := Array.size_replicate
  rw [probe, hv, Option.getD_some]
  refine (represents.direct hsize hzeros).and_possible.bind fun direction hanswer => ?_
  obtain ⟨hdirection, hpossible⟩ := hanswer
  refine (represents.operator direction _ hdirection hzeros).bind fun w hproduct => ?_
  obtain ⟨hw, himage⟩ := hproduct
  refine (project_spec represents hsizes frame hw).bind fun first hfirst => ?_
  refine (project_spec represents hsizes frame hfirst.size).bind fun second hsecond => ?_
  refine (represents.norm hsecond.size).bind fun rest hrest => .pure ?_
  have hsplit := hfirst.trans hsecond
  exact ⟨rfl, {
    direction := hdirection
    components := hsplit.length
    remainder := hsplit.size
    rest := hrest
    image := by rw [← himage, hsplit.sum]; rfl
    orthogonal := hsplit.orthogonal
    preconditioned := ⟨v, hv, hpossible⟩ }⟩

end Gmres

end DomainDecomposition
