import DomainDecomposition.Proofs.Krylov.InnerProduct
import DomainDecomposition.Proofs.Rank.Phases
import DomainDecomposition.Proofs.Scalar.Rational

/-!
# Collectives in any interleaving

The ranks of a world take part in one collective after the other: reductions, gatherings, and the
inner products and norms that are made of reductions. A `Meeting` is one collective with what every
rank contributes to it. All meetings go through the same places of the world, and some ranks may
still be reading in one meeting when others want to write in the next one. The two barriers of each
collective keep the meetings apart.

* `Meeting.join`: what one rank does in a meeting,
* `Meeting.result`: the sums in the order of the ranks, and the counts in this order,
* `orderly_joinAll`: the meetings of all ranks together,
* `collectives_agree`: in every interleaving all ranks get these results, and in exact arithmetic
  products and norms are those of the joined vectors.
-/

namespace DomainDecomposition

open World

variable {T R α : Type}

/-! ## Meetings -/

/-- A collective, with what each rank contributes to it. -/
inductive Meeting (T R : Type) where
  /-- Add up numbers, as many of every rank. -/
  | reduceAll (length : ℕ) (values : ℕ → Vector R length)
  /-- Add up one number of every rank. -/
  | reduce (value : ℕ → R)
  /-- Collect a count from every rank. -/
  | gather (count : ℕ → ℕ)
  /-- The product of two distributed vectors. On every rank they have the same length. -/
  | dot (x y : ℕ → Array T) (sizes : ∀ q, (x q).size = (y q).size)
  /-- The norm of a distributed vector. -/
  | norm (x : ℕ → Array T)

/-- What a rank gets from a meeting. -/
inductive Gain (T R : Type) where
  | numbers (sum : Array R)
  | number (sum : R)
  | counts (counts : List ℕ)
  | scalar (product : T)
  deriving DecidableEq

/-- The sum over `n` ranks, in their order and starting at zero. -/
def rankSum [Zero R] [Add R] (n : ℕ) (value : ℕ → R) : R :=
  (List.range n).foldl (fun sum q => sum + value q) 0

/-- The sum of scalars over `n` ranks. The parts of a complex scalar are added up separately. -/
def scalarSum [Zero R] [Add R] [Scalar T R] (n : ℕ) (own : ℕ → T) : T :=
  if Scalar.isComplex T then
    Scalar.ofParts (rankSum n fun q => Scalar.re (own q)) (rankSum n fun q => Scalar.im (own q))
  else Scalar.ofReal (rankSum n fun q => Scalar.re (own q))

namespace Meeting

variable [Zero T] [Add T] [Mul T] [Zero R] [Add R] [Magnitude R] [Scalar T R]

/-- Take part in a meeting as rank `r`. -/
def join (c : Communicator) (r : ℕ) : Meeting T R → Program T R (Gain T R)
  | reduceAll _ values => do
    return .numbers (← c.reduceAll (values r).toArray)
  | reduce value => do
    return .number (← c.reduce (value r))
  | gather count => do
    return .counts (← c.gather (count r))
  | dot x y _ => do
    return .scalar (← InnerProduct.dot c.reduceAll (x r) (y r))
  | norm x => do
    return .number (← InnerProduct.norm c.reduceAll (x r))

/-- Take part in one meeting after the other. -/
def joinAll (c : Communicator) (r : ℕ) : List (Meeting T R) → Program T R (List (Gain T R))
  | [] => return []
  | meeting :: meetings => do
    let gain ← meeting.join c r
    let gains ← joinAll c r meetings
    return gain :: gains

/-- What `n` ranks get from a meeting. -/
def result (n : ℕ) : Meeting T R → Gain T R
  | reduceAll length values =>
    .numbers (Array.ofFn fun i : Fin length => rankSum n fun q => (values q)[i])
  | reduce value => .number (rankSum n value)
  | gather count => .counts ((List.range n).map count)
  | dot x y _ => .scalar (scalarSum n fun q => InnerProduct.ownDot (x q) (y q))
  | norm x => .number (Magnitude.sqrt (rankSum n fun q => InnerProduct.ownNormSq (x q)))

end Meeting

/-! ## One meeting -/

section Sums

variable [Zero R] [Add R] {k : ℕ}

/-- Adding up contributions of one size, entry by entry. -/
lemma foldl_addContribution {values : ℕ → Array R} {ranks : List ℕ}
    (sizes : ∀ q ∈ ranks, (values q).size = k) {start : Array R} (size : start.size = k) :
    ranks.foldl (fun sum q => Communicator.addContribution sum (values q)) start =
      Array.ofFn fun i : Fin k =>
        ranks.foldl (fun sum q => sum + (values q).getD i 0) (start.getD i 0) := by
  induction ranks generalizing start with
  | nil =>
    refine Array.ext (by rw [Array.size_ofFn]; exact size) fun i (hi : i < start.size) _ => ?_
    simp only [List.foldl_nil, Array.getElem_ofFn, Array.getD, dif_pos hi]
    rfl
  | cons q ranks ih =>
    obtain ⟨hq, hranks⟩ := List.forall_mem_cons.mp sizes
    have hsize : (Communicator.addContribution start (values q)).size = k := by
      simp [Communicator.addContribution, size]
    rw [List.foldl_cons, ih hranks hsize]
    congr 1
    funext i
    rw [List.foldl_cons]
    congr 1
    have hstart : i.val < start.size := size ▸ i.isLt
    have hvalue : i.val < (values q).size := hq ▸ i.isLt
    simp [Communicator.addContribution, Array.getD, hstart, hvalue]

/-- The sum that every rank gets when all contributions have one size. -/
lemma total_eq_ofFn {n r : ℕ} {values : ℕ → Array R} (sizes : ∀ q < n, (values q).size = k)
    (rank : r < n) :
    total n values r = Array.ofFn fun i : Fin k => rankSum n fun q => (values q).getD i 0 := by
  rw [total, foldl_addContribution (fun q hq => sizes q (List.mem_range.mp hq))
    (by rw [Array.size_map, sizes r rank])]
  congr 1
  funext i
  have hi : i.val < (values r).size := sizes r rank ▸ i.isLt
  simp [rankSum, Array.getD, hi]

/-- Every rank contributes equally many numbers, and goes on with what is made of their sums. -/
lemma leads_sums {n : ℕ} {world : World T R} (sized : world.Sized n) (values : ℕ → Array R)
    (sizes : ∀ q < n, (values q).size = k) {γ : Type} {p : ℕ → Program T R γ}
    {F : Array R → γ}
    (hp : ∀ r, p r = (Communicator.member r n).reduceAll (values r) >>= fun sums =>
      .done (F sums)) {gain : γ}
    (hgain : F (Array.ofFn fun i : Fin k => rankSum n fun q => (values q).getD i 0) = gain)
    (K : ℕ → γ → Program T R α) :
    ∃ world', world'.Sized n ∧ Leads n (fun r => p r >>= K r) world (fun r => K r gain) world' := by
  refine ⟨_, sized.withOffered values, ?_⟩
  have hleads := leads_reduceAll (K := fun r sums => K r (F sums)) sized values
    (P := fun r => p r >>= K r) fun r _ => by rw [hp r, Program.bind_bind]; rfl
  exact hleads.trans (.of_eq _ fun r hr => by rw [total_eq_ofFn sizes hr, hgain])

end Sums

section Meetings

variable [Zero T] [Add T] [Mul T] [Zero R] [Add R] [Magnitude R] [Scalar T R]

/-- All ranks take part in a meeting, get its result and leave the places to the next one. -/
lemma leads_join {n : ℕ} {world : World T R} (sized : world.Sized n) (meeting : Meeting T R)
    (K : ℕ → Gain T R → Program T R α) :
    ∃ world', world'.Sized n ∧
      Leads n (fun r => meeting.join (.member r n) r >>= K r) world
        (fun r => K r (meeting.result n)) world' := by
  cases meeting with
  | reduceAll length values =>
    refine leads_sums sized (fun q => (values q).toArray) (fun q _ => (values q).size_toArray)
      (fun _ => rfl) ?_ K
    simp [Meeting.result, Array.getD]
  | reduce value =>
    exact leads_sums (k := 1) (p := fun r => Meeting.join (.member r n) r (.reduce value))
      (F := fun sums => .number (sums.getD 0 0)) sized (fun q => #[value q]) (fun _ _ => rfl)
      (fun _ => Program.bind_bind _ _ _) rfl K
  | gather count =>
    exact ⟨_, sized.withAnnounced count, leads_gather (K := fun r counts => K r (.counts counts))
      sized count fun r _ => Program.bind_bind _ _ _⟩
  | dot x y sizes =>
    have hjoin : ∀ r, Meeting.join (.member r n) r (.dot x y sizes) =
        (Communicator.member r n).reduceAll
          (InnerProduct.parts (InnerProduct.ownDot (x r) (y r))) >>=
        fun sums => .done (.scalar (InnerProduct.ofSums sums)) := by
      intro r
      rw [Meeting.join, InnerProduct.dot_eq]
      exact Program.bind_bind _ _ _
    -- the parts of a complex product are added up as two numbers
    by_cases h : Scalar.isComplex T
    · exact leads_sums (k := 2) sized _ (fun _ _ => by simp [InnerProduct.parts, h]) hjoin
        (by simp [Meeting.result, scalarSum, InnerProduct.parts, InnerProduct.ofSums, h]) K
    · exact leads_sums (k := 1) sized _ (fun _ _ => by simp [InnerProduct.parts, h]) hjoin
        (by simp [Meeting.result, scalarSum, InnerProduct.parts, InnerProduct.ofSums, h]) K
  | norm x =>
    exact leads_sums (k := 1) (p := fun r => Meeting.join (.member r n) r (.norm x))
      (F := fun sums => .number (Magnitude.sqrt (sums.getD 0 0))) sized
      (fun q => #[InnerProduct.ownNormSq (x q)]) (fun _ _ => rfl)
      (fun _ => Program.bind_bind _ _ _) rfl K

/-- Meeting after meeting, all ranks get the results. -/
theorem orderly_joinAll {n : ℕ} (meetings : List (Meeting T R)) {world : World T R}
    (sized : world.Sized n) :
    Orderly n (fun _ => meetings.map (Meeting.result n))
      (fun r => Meeting.joinAll (.member r n) r meetings) world := by
  induction meetings generalizing world with
  | nil => exact orderly_done n _ world
  | cons meeting meetings ih =>
    obtain ⟨world', sized', hleads⟩ := leads_join sized meeting fun r gain =>
      Meeting.joinAll (.member r n) r meetings >>= fun gains => .done (gain :: gains)
    exact hleads.orderly ((ih sized').map fun _ gains => meeting.result n :: gains)

end Meetings

/-! ## Exact arithmetic -/

section Exact

variable {𝕜 : Type} [RCLike 𝕜]

/-- The entries of a distributed vector, rank after rank. -/
def joined (n : ℕ) (x : ℕ → Array T) : List T :=
  (List.range n).flatMap fun q => (x q).toList

lemma joined_succ (n : ℕ) (x : ℕ → Array T) : joined (n + 1) x = joined n x ++ (x n).toList := by
  simp [joined, List.range_succ, List.flatMap_append]

lemma length_joined (n : ℕ) (x : ℕ → Array T) :
    (joined n x).length = ((List.range n).map fun q => (x q).size).sum := by
  simp [joined, List.length_flatMap]

lemma rankSum_succ [Zero R] [Add R] (n : ℕ) (value : ℕ → R) :
    rankSum (n + 1) value = rankSum n value + value n := by
  simp [rankSum, List.range_succ]

/-- In exact arithmetic the order of the ranks makes no difference. -/
lemma rankSum_eq_sum (n : ℕ) (value : ℕ → ℝ) : rankSum n value = ∑ q ∈ Finset.range n, value q := by
  induction n with
  | zero => rfl
  | succ n ih => rw [rankSum_succ, Finset.sum_range_succ, ih]

lemma scalarSum_eq_sum (n : ℕ) (own : ℕ → 𝕜) : scalarSum n own = ∑ q ∈ Finset.range n, own q := by
  have hre : ∑ q ∈ Finset.range n, (Scalar.re (own q) : ℝ) =
      Scalar.re (∑ q ∈ Finset.range n, own q) := (map_sum (RCLike.re (K := 𝕜)) own _).symm
  have him : ∑ q ∈ Finset.range n, (Scalar.im (own q) : ℝ) =
      Scalar.im (∑ q ∈ Finset.range n, own q) := (map_sum (RCLike.im (K := 𝕜)) own _).symm
  rw [scalarSum, rankSum_eq_sum, rankSum_eq_sum, hre, him, InnerProduct.ite_parts]

/-- The product of distributed vectors is that of the joined vectors. -/
lemma result_dot {n : ℕ} {x y : ℕ → Array 𝕜} (sizes : ∀ q, (x q).size = (y q).size) :
    (Meeting.dot x y sizes).result n =
      .scalar (List.zipWith (fun a b => starRingEnd 𝕜 a * b) (joined n x) (joined n y)).sum := by
  rw [Meeting.result, scalarSum_eq_sum]
  congr 1
  induction n with
  | zero => rfl
  | succ n ih =>
    -- the vectors are zipped rank by rank, so the ranks before have to end at one place
    have hlength : (joined n x).length = (joined n y).length := by
      rw [length_joined, length_joined]
      congr 1
      exact List.map_congr_left fun q _ => sizes q
    rw [Finset.sum_range_succ, ih, joined_succ, joined_succ,
      List.zipWith_append hlength, List.sum_append, InnerProduct.ownDot_eq_sum]

/-- The norm of a distributed vector is that of the joined vector. -/
lemma result_norm (n : ℕ) (x : ℕ → Array 𝕜) :
    (Meeting.norm x).result n = .number √((joined n x).map fun a => ‖a‖ ^ 2).sum := by
  have hsum : rankSum n (fun q => InnerProduct.ownNormSq (x q)) =
      ((joined n x).map fun a => ‖a‖ ^ 2).sum := by
    induction n with
    | zero => rfl
    | succ n ih =>
      rw [rankSum_succ, ih, joined_succ, List.map_append, List.sum_append,
        InnerProduct.ownNormSq_eq_sum]
  rw [Meeting.result, hsum]
  rfl

end Exact

/-- In every interleaving of the ranks, all of them finish all meetings with the same results: sums
in the order of the ranks, whatever the addition is, and counts in this order. In exact arithmetic,
a product is the one of the joined vectors, and a norm is the one of the joined vector. -/
theorem collectives_agree [Zero T] [Add T] [Mul T] [Zero R] [Add R] [Magnitude R] [Scalar T R]
    {n : ℕ} (meetings : List (Meeting T R)) {world : World T R} (sized : world.Sized n) :
    Settles n (fun _ => meetings.map (Meeting.result n))
      ⟨world, fun r => Meeting.joinAll (.member r n) r meetings⟩ ∧
    ∀ (𝕜 : Type) [RCLike 𝕜] (x y : ℕ → Array 𝕜) (sizes : ∀ q, (x q).size = (y q).size),
      (Meeting.dot x y sizes).result n = .scalar
        (List.zipWith (fun a b => starRingEnd 𝕜 a * b) (joined n x) (joined n y)).sum ∧
      (Meeting.norm x).result n = .number √((joined n x).map fun a => ‖a‖ ^ 2).sum :=
  ⟨(orderly_joinAll meetings sized).settles,
    fun _ _ x _ sizes => ⟨result_dot sizes, result_norm n x⟩⟩

/-- Three ranks add up numbers and a product, and collect counts in between. -/
def trioMeetings : List (Meeting ℚ ℚ) :=
  [.reduceAll 2 fun r => #v[r, 1], .gather fun r => 10 * r,
    .dot (fun r => #[r, 2]) (fun _ => #[1, 1]) fun _ => rfl, .reduce fun r => r + 1]

/-- All ranks get the same sums and the same counts. -/
theorem trio_collectives_agree :
    Settles 3 (fun _ => [.numbers #[3, 3], .counts [0, 10, 20], .scalar 9, .number 6])
      ⟨initial 3, fun r => Meeting.joinAll (.member r 3) r trioMeetings⟩ ∧
    (Meeting.dot (fun r => #[(r : ℝ), 2]) (fun _ => #[1, 1]) fun _ => rfl).result 3 = .scalar 9 := by
  constructor
  · have hgains : trioMeetings.map (Meeting.result 3) =
        [.numbers #[3, 3], .counts [0, 10, 20], .scalar 9, .number 6] := by
      decide +kernel
    exact hgains ▸ (collectives_agree trioMeetings (sized_initial 3)).1
  · have hdot := ((collectives_agree trioMeetings (sized_initial 3)).2 ℝ
      (fun r => #[(r : ℝ), 2]) (fun _ => #[1, 1]) fun _ => rfl).1
    rw [hdot]
    norm_num [joined, List.range_succ]

end DomainDecomposition
