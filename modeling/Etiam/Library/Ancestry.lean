import Mathlib

/-! Nodes with parents up to a root, and the way from one node to another over the nearest node
above both. -/

namespace Etiam

namespace Ancestry

variable {K : Type}

/-- Two paths upwards that end below one common node. -/
structure Route (K : Type) where
  dead : List K
  common : K
  fresh : List K

/-- Climb from two nodes at one depth until they meet, but not above a floor. -/
def climb [DecidableEq K] (parent : K → K) (floor : ℕ) (depth : ℕ) (a b : K) :
    Option (Route K) :=
  if depth < floor then none
  else if a = b then some ⟨[], a, []⟩
  else
    match depth with
    | 0 => none
    | depth + 1 => do
      let route ← climb parent floor depth (parent a) (parent b)
      return ⟨a :: route.dead, route.common, b :: route.fresh⟩

/-- A node and those above it, a number of steps up. -/
def path (parent : K → K) : ℕ → K → List K
  | 0, _ => []
  | steps + 1, a => a :: path parent steps (parent a)

/-- The way from one node to another: up to one depth, and from there to where they meet. -/
def route [DecidableEq K] (parent : K → K) (depth : K → ℕ) (floor : ℕ) (a b : K) :
    Option (Route K) := do
  let pre := path parent (depth a - depth b) a
  let back := path parent (depth b - depth a) b
  let rest ← climb parent floor (min (depth a) (depth b)) (parent^[depth a - depth b] a)
    (parent^[depth b - depth a] b)
  return ⟨pre ++ rest.dead, rest.common, back ++ rest.fresh⟩

/-- The node above another one at a depth. -/
def ancestor (parent : K → K) (depth : K → ℕ) (n : ℕ) (k : K) : K := parent^[depth k - n] k

/-- Known nodes form a tree: each but the root has a known parent, one step nearer to the root. -/
structure Rooted (known : K → Prop) (parent : K → K) (depth : K → ℕ) (root : K) : Prop where
  known_root : known root
  depth_root : depth root = 0
  step : ∀ {k}, known k → k ≠ root → known (parent k) ∧ depth k = depth (parent k) + 1

variable {parent : K → K} {floor : ℕ} {a b : K}

@[simp] theorem length_path (steps : ℕ) (a : K) : (path parent steps a).length = steps := by
  induction steps generalizing a with
  | zero => rfl
  | succ steps ih => simp [path, ih]

theorem mem_path {steps : ℕ} {a k : K} :
    k ∈ path parent steps a ↔ ∃ i, i < steps ∧ parent^[i] a = k := by
  induction steps generalizing a with
  | zero => simp [path]
  | succ steps ih =>
    simp only [path, List.mem_cons, ih]
    constructor
    · rintro (rfl | ⟨i, below, rfl⟩)
      · exact ⟨0, Nat.succ_pos _, rfl⟩
      · exact ⟨i + 1, Nat.succ_lt_succ below, rfl⟩
    · rintro ⟨i, below, rfl⟩
      cases i with
      | zero => exact .inl rfl
      | succ i => exact .inr ⟨i, Nat.lt_of_succ_lt_succ below, rfl⟩

theorem path_add (i j : ℕ) (a : K) :
    path parent (i + j) a = path parent i a ++ path parent j (parent^[i] a) := by
  induction i generalizing a with
  | zero => simp [path]
  | succ i ih =>
    rw [Nat.succ_add, path, path, ih, Function.iterate_succ_apply]
    rfl

section Climbing

variable [DecidableEq K] {depth : ℕ}

/-- What a climb finds: the first steps up at which the two paths meet. -/
structure Meets (parent : K → K) (a b : K) (steps : ℕ) (route : Route K) : Prop where
  left : parent^[steps] a = route.common
  right : parent^[steps] b = route.common
  dead : route.dead = path parent steps a
  fresh : route.fresh = path parent steps b
  apart : ∀ i < steps, parent^[i] a ≠ parent^[i] b

omit [DecidableEq K] in
theorem meets_self (a : K) : Meets parent a a 0 ⟨[], a, []⟩ where
  left := rfl
  right := rfl
  dead := rfl
  fresh := rfl
  apart i below := absurd below (Nat.not_lt_zero i)

/-- A climb that succeeds finds where the paths meet, at or below the floor. -/
theorem climb_eq_some {route : Route K} (climbed : climb parent floor depth a b = some route) :
    ∃ steps, floor + steps ≤ depth ∧ Meets parent a b steps route := by
  -- The induction is on the depth, as the climb goes.
  induction depth generalizing a b route with
  | zero =>
    unfold climb at climbed
    split at climbed
    · cases climbed
    · split at climbed
      · next same =>
        cases climbed
        subst same
        exact ⟨0, by omega, meets_self a⟩
      · cases climbed
  | succ depth ih =>
    unfold climb at climbed
    split at climbed
    · cases climbed
    · split at climbed
      · next same =>
        cases climbed
        subst same
        exact ⟨0, by omega, meets_self a⟩
      · next different =>
        obtain ⟨above, rest, made⟩ := Option.bind_eq_some_iff.mp climbed
        cases made
        obtain ⟨steps, low, left, right, dead, fresh, apart⟩ := ih rest
        refine ⟨steps + 1, by omega, left, right, by simp [path, dead], by simp [path, fresh], ?_⟩
        intro i below
        cases i with
        | zero => exact different
        | succ i => exact apart i (by omega)

end Climbing

namespace Rooted

variable {known : K → Prop} {depth : K → ℕ} {root k : K} {n : ℕ} {found : Route K}

@[simp] theorem ancestor_self : ancestor parent depth (depth k) k = k := by simp [ancestor]

variable (tree : Rooted known parent depth root)

include tree

section

variable (isKnown : known k)

include isKnown

theorem eq_root (high : depth k = 0) : k = root := by
  by_contra other
  have below := (tree.step isKnown other).2
  omega

theorem iterate {i : ℕ} (low : i ≤ depth k) :
    known (parent^[i] k) ∧ depth (parent^[i] k) = depth k - i := by
  induction i with
  | zero => exact ⟨isKnown, rfl⟩
  | succ i ih =>
    obtain ⟨there, far⟩ := ih (by omega)
    have other : parent^[i] k ≠ root := by
      intro same
      rw [same, tree.depth_root] at far
      omega
    obtain ⟨above, one⟩ := tree.step there other
    rw [Function.iterate_succ_apply']
    exact ⟨above, by omega⟩

theorem known_ancestor (n : ℕ) : known (ancestor parent depth n k) :=
  (tree.iterate isKnown (Nat.sub_le _ _)).1

theorem depth_ancestor (low : n ≤ depth k) : depth (ancestor parent depth n k) = n := by
  rw [ancestor, (tree.iterate isKnown (Nat.sub_le _ _)).2]
  omega

theorem ancestor_zero : ancestor parent depth 0 k = root :=
  tree.eq_root (tree.known_ancestor isKnown 0) (tree.depth_ancestor isKnown (Nat.zero_le _))

theorem ancestor_ancestor {m : ℕ} (order : n ≤ m) (low : m ≤ depth k) :
    ancestor parent depth n (ancestor parent depth m k) = ancestor parent depth n k := by
  rw [ancestor, tree.depth_ancestor isKnown low, ancestor, ancestor, ← Function.iterate_add_apply]
  congr 1
  omega

theorem ancestor_parent (low : n < depth k) :
    ancestor parent depth n (parent k) = ancestor parent depth n k := by
  have other : k ≠ root := by
    intro same
    rw [same, tree.depth_root] at low
    omega
  have one := (tree.step isKnown other).2
  rw [ancestor, ancestor, ← Function.iterate_succ_apply]
  congr 1
  omega

end

theorem ancestor_congr {parent' : K → K} {depth' : K → ℕ}
    (same : ∀ x, known x → parent' x = parent x) (deep : ∀ x, known x → depth' x = depth x)
    (isKnown : known k) (n : ℕ) : ancestor parent' depth' n k = ancestor parent depth n k := by
  have steps : ∀ i, i ≤ depth k → parent'^[i] k = parent^[i] k := by
    intro i
    induction i with
    | zero => intro _; rfl
    | succ i ih =>
      intro low
      rw [Function.iterate_succ_apply', Function.iterate_succ_apply', ih (by omega)]
      exact same _ (tree.iterate isKnown (by omega)).1
  rw [ancestor, ancestor, deep k isKnown, steps _ (Nat.sub_le _ _)]

omit tree in
theorem mem_path_iff {x : K} :
    x ∈ path parent (depth k - n) k ↔
      ∃ m, n < m ∧ m ≤ depth k ∧ x = ancestor parent depth m k := by
  rw [mem_path]
  constructor
  · rintro ⟨i, below, rfl⟩
    refine ⟨depth k - i, by omega, by omega, ?_⟩
    rw [ancestor]
    congr 1
    omega
  · rintro ⟨m, above, low, rfl⟩
    exact ⟨depth k - m, by omega, rfl⟩

/-- Where a route turns: at the lowest node above both ends, not above the floor. -/
structure Turns (parent : K → K) (depth : K → ℕ) (floor : ℕ) (a b : K) (n : ℕ)
    (found : Route K) : Prop where
  floor : floor ≤ n
  left : n ≤ depth a
  right : n ≤ depth b
  above : ancestor parent depth n a = found.common
  beyond : ancestor parent depth n b = found.common
  dead : found.dead = path parent (depth a - n) a
  fresh : found.fresh = path parent (depth b - n) b
  apart : ∀ m, n < m → m ≤ depth a → m ≤ depth b →
    ancestor parent depth m a ≠ ancestor parent depth m b

omit tree in
/-- A route that is found turns at the lowest node above both ends. -/
theorem route_eq_some [DecidableEq K] (routed : route parent depth floor a b = some found) :
    ∃ n, Turns parent depth floor a b n found := by
  obtain ⟨rest, climbed, made⟩ := Option.bind_eq_some_iff.mp routed
  cases made
  obtain ⟨steps, low, left, right, dead, fresh, apart⟩ := climb_eq_some climbed
  have first : depth a - (min (depth a) (depth b) - steps) = steps + (depth a - depth b) := by omega
  have second : depth b - (min (depth a) (depth b) - steps) = steps + (depth b - depth a) := by
    omega
  refine ⟨min (depth a) (depth b) - steps, by omega, by omega, by omega, ?_, ?_, ?_, ?_, ?_⟩
  · rw [ancestor, first, Function.iterate_add_apply, left]
  · rw [ancestor, second, Function.iterate_add_apply, right]
  · rw [first, Nat.add_comm, path_add, dead]
  · rw [second, Nat.add_comm, path_add, fresh]
  · intro m above onA onB same
    apply apart (min (depth a) (depth b) - m) (by omega)
    rw [← Function.iterate_add_apply, ← Function.iterate_add_apply]
    rw [ancestor, ancestor] at same
    have one : min (depth a) (depth b) - m + (depth a - depth b) = depth a - m := by omega
    have two : min (depth a) (depth b) - m + (depth b - depth a) = depth b - m := by omega
    rw [one, two, same]

omit tree in
/-- Once both ends of a route are at one depth, it turns where the two paths first meet. -/
theorem Turns.meets (turns : Turns parent depth floor a b n found) :
    ∃ rest, Meets parent (parent^[depth a - depth b] a) (parent^[depth b - depth a] b)
        (min (depth a) (depth b) - n) rest ∧ rest.common = found.common ∧
      found.dead = path parent (depth a - depth b) a ++ rest.dead ∧
      found.fresh = path parent (depth b - depth a) b ++ rest.fresh := by
  have left := turns.left
  have right := turns.right
  have first : depth a - n = depth a - depth b + (min (depth a) (depth b) - n) := by omega
  have second : depth b - n = depth b - depth a + (min (depth a) (depth b) - n) := by omega
  refine ⟨⟨path parent (min (depth a) (depth b) - n) (parent^[depth a - depth b] a), found.common,
    path parent (min (depth a) (depth b) - n) (parent^[depth b - depth a] b)⟩,
    ⟨?_, ?_, rfl, rfl, ?_⟩, rfl, ?_, ?_⟩
  · rw [← Function.iterate_add_apply, Nat.add_comm, ← first]
    exact turns.above
  · rw [← Function.iterate_add_apply, Nat.add_comm, ← second]
    exact turns.beyond
  · intro i below same
    -- A step from here is an ancestor of both ends below the one where the route turns.
    apply turns.apart (min (depth a) (depth b) - i) (by omega) (by omega) (by omega)
    rw [← Function.iterate_add_apply, ← Function.iterate_add_apply] at same
    rw [ancestor, ancestor, show depth a - (min (depth a) (depth b) - i) =
      i + (depth a - depth b) by omega, show depth b - (min (depth a) (depth b) - i) =
      i + (depth b - depth a) by omega]
    exact same
  · rw [turns.dead, first, path_add]
  · rw [turns.fresh, second, path_add]

theorem common_eq_iff (first : known a) (turns : Turns parent depth floor a b n found) :
    found.common = b ↔ ancestor parent depth (depth b) a = b := by
  have left := turns.left
  have right := turns.right
  constructor
  · intro same
    have deep := tree.depth_ancestor first left
    rw [turns.above, same] at deep
    rw [deep, turns.above, same]
  · intro same
    have low : depth b ≤ depth a := by
      by_contra high
      rw [ancestor, Nat.sub_eq_zero_of_le (by omega), Function.iterate_zero_apply] at same
      rw [same] at high
      exact high (Nat.le_refl _)
    have level : n = depth b := by
      by_contra other
      apply turns.apart (depth b) (by omega) low (Nat.le_refl _)
      rw [same, ancestor_self]
    rw [← turns.beyond, level, ancestor_self]

/-- Between two nodes of a tree there is a route, with the root at the latest. -/
theorem exists_turns (first : known a) (second : known b) :
    ∃ n found, Turns parent depth 0 a b n found := by
  classical
  -- The lowest common node is the deepest level at which the two ancestors are one.
  let Meet : ℕ → Prop := fun n => ancestor parent depth n a = ancestor parent depth n b
  let n := Nat.findGreatest Meet (min (depth a) (depth b))
  have low : n ≤ min (depth a) (depth b) := Nat.findGreatest_le _
  have same : Meet n := by
    apply Nat.findGreatest_spec (Nat.zero_le _)
    show ancestor parent depth 0 a = ancestor parent depth 0 b
    rw [tree.ancestor_zero first, tree.ancestor_zero second]
  refine ⟨n, ⟨path parent (depth a - n) a, ancestor parent depth n a,
    path parent (depth b - n) b⟩, Nat.zero_le _, by omega, by omega, rfl, same.symm, rfl, rfl, ?_⟩
  intro m above onA onB
  exact Nat.findGreatest_is_greatest above (by omega)

theorem nodup_path (isKnown : known k) {steps : ℕ} (low : steps ≤ depth k) :
    (path parent steps k).Nodup := by
  induction steps generalizing k with
  | zero => exact List.nodup_nil
  | succ steps ih =>
    have other : k ≠ root := by
      intro same
      rw [same, tree.depth_root] at low
      omega
    obtain ⟨above, one⟩ := tree.step isKnown other
    refine List.nodup_cons.mpr ⟨?_, ih above (by omega)⟩
    rw [mem_path]
    rintro ⟨i, below, same⟩
    -- Every later node of the path is nearer to the root.
    have far := (tree.iterate above (i := i) (by omega)).2
    rw [same] at far
    omega

theorem nodup_route (first : known a) (second : known b)
    (turns : Turns parent depth floor a b n found) :
    (found.dead ++ found.common :: found.fresh.reverse).Nodup := by
  have left := turns.left
  have right := turns.right
  have dead : found.dead.Nodup := by
    rw [turns.dead]
    exact tree.nodup_path first (by omega)
  have fresh : found.fresh.Nodup := by
    rw [turns.fresh]
    exact tree.nodup_path second (by omega)
  have meet : depth found.common = n := by
    rw [← turns.above]
    exact tree.depth_ancestor first left
  -- Nodes of the two branches lie below the common one, and those of one depth differ.
  have onDead : ∀ x ∈ found.dead, ∃ m, n < m ∧ m ≤ depth a ∧ x = ancestor parent depth m a := by
    intro x member
    rw [turns.dead] at member
    exact mem_path_iff.mp member
  have onFresh : ∀ x ∈ found.fresh,
      ∃ m, n < m ∧ m ≤ depth b ∧ x = ancestor parent depth m b := by
    intro x member
    rw [turns.fresh] at member
    exact mem_path_iff.mp member
  rw [List.nodup_append, List.nodup_cons, List.nodup_reverse]
  refine ⟨dead, ⟨?_, fresh⟩, ?_⟩
  · intro member
    obtain ⟨m, above, low, same⟩ := onFresh _ (List.mem_reverse.mp member)
    rw [same, tree.depth_ancestor second low] at meet
    omega
  · intro x member y other same
    subst same
    obtain ⟨m, above, low, named⟩ := onDead x member
    have deep := tree.depth_ancestor first low
    rw [← named] at deep
    obtain rfl | inFresh := List.mem_cons.mp other
    · omega
    · obtain ⟨m', above', low', named'⟩ := onFresh x (List.mem_reverse.mp inFresh)
      have deep' := tree.depth_ancestor second low'
      rw [← named'] at deep'
      obtain rfl : m = m' := by omega
      exact turns.apart m above low low' (named.symm.trans named')

end Rooted

end Ancestry

end Etiam
