import Etiam.Chain.Canonical

/-! The way from one block to another in the tree of blocks, with the place of the block where the
two branches meet. -/

namespace Etiam

/-- The blocks from one block to another, the latest common ancestor of the two, and the index at
which the ancestor is said to be. -/
structure TreeRoute where
  route : List Hash
  common : Hash
  index : ℕ
  deriving DecidableEq

/-- Two branches meet before the last irreversible block. -/
structure ExceedIrreversibleBlock where
  min : ℕ
  got : ℕ
  deriving DecidableEq

namespace BlockChain

variable (bc : BlockChain)

/-- Go up from a block a number of times, and note the blocks that are left behind if asked to. -/
def ascend (noted : Bool) : ℕ → Hash → List Hash → Hash × List Hash
  | 0, block, passed => (block, passed)
  | steps + 1, block, passed =>
    ascend noted steps (bc.parent block) (if noted then passed ++ [block] else passed)

/-- Go up from two blocks at once until they are one. -/
def converge (common pre post : Bool) (irreversibleBlockNum : ℕ) :
    ℕ → U32 → Hash → Hash → List Hash → List Hash →
      Option (Except ExceedIrreversibleBlock (Hash × List Hash × List Hash))
  | 0, _, _, _, _, _ => none
  | fuel + 1, fn, a, b, route, back =>
    -- Where irreversible blocks are not considered the bound is zero, and no number is below it.
    if fn.toNat < irreversibleBlockNum then some (.error ⟨irreversibleBlockNum, fn.toNat⟩)
    else
      let route := if pre && (a != b || common) then route ++ [a] else route
      let back := if post && (a != b || (!pre && common)) then back ++ [b] else back
      if a = b then some (.ok (a, route, back))
      else
        converge common pre post irreversibleBlockNum fuel (fn - 1) (bc.parent a) (bc.parent b)
          route back

/-- The way from one block to another. None is the answer of a search that needs more fuel. -/
def treeRouteWith (fuel : ℕ) (a b : Hash) (common pre post considerIrreversible : Bool) :
    Option (Except ExceedIrreversibleBlock TreeRoute) :=
  if a = 0 ∨ b = 0 then some (.ok ⟨[], 0, 0⟩)
  else if (bc.details a).isNull || (bc.details b).isNull then some (.ok ⟨[], 0, 0⟩)
  else
    let fn := bc.number a
    let tn := bc.number b
    let start := bc.ascend pre (fn - tn) a []
    let other := bc.ascend post (tn - fn) b []
    let irreversibleBlockNum := if considerIrreversible then bc.irreversibleBlockNum else 0
    (bc.converge common pre post irreversibleBlockNum fuel (BitVec.ofNat 32 (min fn tn)) start.1
      other.1 start.2 other.2).map fun met => met.map fun (meet, route, back) =>
        { route := route ++ back.reverse
          common := meet
          index := route.length - if common && !route.isEmpty && !back.isEmpty then 1 else 0 }

/-- A block that the details table tells about. -/
def Noted (hash : Hash) : Prop := hash ≠ 0 ∧ (bc.details hash).isNull = false

variable {bc}

theorem ascend_eq (steps : ℕ) (block : Hash) (passed : List Hash) :
    bc.ascend true steps block passed =
      (bc.parent^[steps] block, passed ++ Ancestry.path bc.parent steps block) := by
  induction steps generalizing block passed with
  | zero => simp [ascend, Ancestry.path]
  | succ steps ih => simp [ascend, ih, Ancestry.path]

theorem converge_of_ne {a b : Hash} (different : a ≠ b) {floor : ℕ} {fn : U32}
    (high : floor ≤ fn.toNat) (fuel : ℕ) (route back : List Hash) :
    bc.converge true true true floor (fuel + 1) fn a b route back =
      bc.converge true true true floor fuel (fn - 1) (bc.parent a) (bc.parent b) (route ++ [a])
        (back ++ [b]) := by
  rw [converge, if_neg (Nat.not_lt.mpr high), if_neg different]
  simp [different]

/-- Where the bound is zero, the two branches are followed up to where they meet, whatever the
numbers are counted down to. -/
theorem converge_of_meets {a b : Hash} {steps : ℕ} {met : Ancestry.Route Hash}
    (meets : Ancestry.Meets bc.parent a b steps met) {fuel : ℕ} (enough : steps < fuel)
    (fn : U32) (route back : List Hash) :
    bc.converge true true true 0 fuel fn a b route back =
      some (.ok (met.common, route ++ met.dead ++ [met.common], back ++ met.fresh)) := by
  obtain ⟨left, right, dead, fresh, apart⟩ := meets
  rw [dead, fresh]
  clear dead fresh
  -- The induction is on the steps that are left, one for each time around the loop.
  induction steps generalizing a b fuel fn route back with
  | zero =>
    obtain ⟨fuel, rfl⟩ := Nat.exists_eq_succ_of_ne_zero (Nat.ne_of_gt enough)
    obtain rfl : a = met.common := left
    obtain rfl : b = met.common := right
    simp [converge, Ancestry.path]
  | succ steps ih =>
    obtain ⟨fuel, rfl⟩ := Nat.exists_eq_succ_of_ne_zero (Nat.ne_zero_of_lt enough)
    have different : a ≠ b := apart 0 (Nat.succ_pos _)
    have onwards := ih (Nat.lt_of_succ_lt_succ enough) (fn - 1) (route ++ [a]) (back ++ [b]) left
      right (fun i below => apart (i + 1) (Nat.succ_lt_succ below))
    rw [converge_of_ne different (Nat.zero_le _), onwards]
    simp [Ancestry.path]

/-- The index is that of the common block, or one more where nothing follows it. -/
theorem treeRouteWith_of_turns {a b : Hash} (knownA : bc.Noted a) (knownB : bc.Noted b) {n : ℕ}
    {found : Ancestry.Route Hash}
    (turns : Ancestry.Rooted.Turns bc.parent bc.number 0 a b n found) {fuel : ℕ}
    (enough : min (bc.number a) (bc.number b) < fuel) :
    bc.treeRouteWith fuel a b true true true false =
      some (.ok ⟨found.dead ++ found.common :: found.fresh.reverse, found.common,
        found.dead.length + if found.fresh = [] then 1 else 0⟩) := by
  obtain ⟨rest, meets, common, dead, fresh⟩ := turns.meets
  have reached : min (bc.number a) (bc.number b) - n < fuel := by omega
  have climbed := converge_of_meets meets reached
    (BitVec.ofNat 32 (min (bc.number a) (bc.number b)))
    (Ancestry.path bc.parent (bc.number a - bc.number b) a)
    (Ancestry.path bc.parent (bc.number b - bc.number a) b)
  rw [← dead, ← fresh, common] at climbed
  rw [treeRouteWith, if_neg (not_or.mpr ⟨knownA.1, knownB.1⟩), knownA.2, knownB.2]
  simp only [Bool.or_self, Bool.false_eq_true, if_false, ascend_eq, List.nil_append, climbed]
  cases found.fresh with
  | nil => simp [Except.map]
  | cons x rest => simp [Except.map]

/-- In a chain below the greatest number, the details table tells about the stored blocks. -/
theorem Grown.noted_iff (grown : bc.Grown) (bounded : bc.lastBlockNumber < Config.invalidNumber)
    (hash : Hash) : bc.Noted hash ↔ bc.Known hash := by
  constructor
  · rintro ⟨-, told⟩
    cases found : bc.detailsTable.find hash with
    | none =>
      rw [details, found] at told
      cases told
    | some d =>
      have tells : bc.Tells hash d := by
        unfold Cached.find at found
        cases held : bc.detailsTable.cache[hash]? with
        | some e =>
          obtain rfl : e = d := by simpa [held] using found
          exact grown.held hash e held
        | none =>
          rw [held] at found
          exact grown.stored hash d found
      obtain ⟨block, stored, -⟩ := tells
      exact ⟨block, stored⟩
  · rintro ⟨block, stored⟩
    refine ⟨?_, ?_⟩
    · rw [← grown.named hash block stored]
      exact block.hashed
    · have number : (bc.details hash).number = block.number := (grown.details_of stored).1
      have low := grown.low hash block stored
      rw [BlockDetails.isNull, number]
      exact beq_false_of_ne (by omega)

theorem Grown.rooted_noted (grown : bc.Grown)
    (bounded : bc.lastBlockNumber < Config.invalidNumber) :
    Ancestry.Rooted bc.Noted bc.parent bc.number bc.genesisHash := by
  have same : bc.Noted = bc.Known := funext fun hash => propext (grown.noted_iff bounded hash)
  rw [same]
  exact grown.rooted

/-- The way between two blocks of a tree is found: from one block to the lowest one above both and
on to the other, each block once. The index is where the lowest one stands unless the way ends
there. -/
theorem treeRoute_meets_at_index {root a b : Hash}
    (tree : Ancestry.Rooted bc.Noted bc.parent bc.number root) (knownA : bc.Noted a)
    (knownB : bc.Noted b) :
    ∃ n found r, Ancestry.Rooted.Turns bc.parent bc.number 0 a b n found ∧
      (∀ fuel, min (bc.number a) (bc.number b) < fuel →
        bc.treeRouteWith fuel a b true true true false = some (.ok r)) ∧
      r.route = found.dead ++ found.common :: found.fresh.reverse ∧ r.route.Nodup ∧
      r.common = found.common ∧
      (r.route[r.index]? = some r.common ↔
        Ancestry.ancestor bc.parent bc.number (bc.number b) a ≠ b) := by
  obtain ⟨n, found, turns⟩ := tree.exists_turns knownA knownB
  refine ⟨n, found, _, turns, fun fuel enough => treeRouteWith_of_turns knownA knownB turns enough,
    rfl, tree.nodup_route knownA knownB turns, rfl, ?_⟩
  rw [← not_iff_not, not_not, ← tree.common_eq_iff knownA turns]
  have right := turns.right
  have ends : found.fresh = [] ↔ found.common = b := by
    rw [← List.length_eq_zero_iff, turns.fresh, Ancestry.length_path]
    constructor
    · intro none
      rw [← turns.beyond, show n = bc.number b by omega, Ancestry.Rooted.ancestor_self]
    · intro same
      have deep := tree.depth_ancestor knownB right
      rw [turns.beyond, same] at deep
      omega
  rw [← ends]
  by_cases last : found.fresh = []
  · simp [last]
  · simp [last]

/-- Between the heads of two branches, the index leads to the block where they part. -/
theorem treeRoute_meets_at_index_switched :
    ∃ bc r, (start sampleGenesis [100, 200]).bind (·.calls switching) = some bc ∧
      bc.treeRouteWith 2 11 22 true true true false = some (.ok r) ∧
      r.route[r.index]? = some r.common := by
  have ran : ((start sampleGenesis [100, 200]).bind (·.calls switching)).map
      (fun bc => (bc.lastBlockNumber, bc.number 11, bc.number 22, bc.parent 11,
        (bc.details 11).isNull, (bc.details 22).isNull)) = some (2, 1, 2, 7, false, false) := by
    decide +kernel
  obtain ⟨bc, reached, values⟩ := Option.map_eq_some_iff.mp ran
  obtain ⟨first, started, run⟩ := Option.bind_eq_some_iff.mp reached
  simp only [Prod.mk.injEq] at values
  obtain ⟨last, low, high, above, told, told'⟩ := values
  have grown := (grown_start started).calls run
  obtain ⟨n, found, r, -, routed, -, -, -, index⟩ := treeRoute_meets_at_index (a := 11) (b := 22)
    (grown.rooted_noted (by rw [last]; decide)) ⟨by decide, told⟩ ⟨by decide, told'⟩
  refine ⟨bc, r, reached, routed 2 (by omega), index.mpr ?_⟩
  rw [Ancestry.ancestor, low, high]
  show (11 : Hash) ≠ 22
  decide

/-- From the head to its parent, the index leads past the end of the way. -/
theorem treeRoute_index_past_end :
    ((start sampleGenesis [100, 200]).bind (·.calls switching)).bind
      (·.treeRouteWith 2 22 21 true true true false) = some (.ok ⟨[22, 21], 21, 2⟩) ∧
    ([22, 21] : List Hash)[2]? ≠ some 21 := by
  exact ⟨by decide +kernel, by decide⟩

end BlockChain

end Etiam
