import Mathlib.Tactic.Linarith
import Mathlib.Tactic.Ring

/-!
Proportional shares by strides.

Whoever has the weight `v` moves on by `track / v` at each of its turns. When two of them keep
level with a common clock, the turns they have had are in proportion to their weights.
-/

namespace Etiam.Stride

variable {track v w m n : ℕ}

/-- A stride times its weight misses the track by less than the weight. -/
theorem track_lt (positive : 0 < v) : track < track / v * v + v := by
  have parts := Nat.div_add_mod track v
  have rest := Nat.mod_lt track positive
  rw [Nat.mul_comm] at parts
  omega

/-- Nobody passes the end of the track with more turns than twice its weight. -/
theorem turns_lt (positive : 0 < v) (fine : 2 * v ≤ track) (within : n * (track / v) ≤ track) :
    n < 2 * v := by
  have near : track < track / v * v + v := track_lt positive
  by_contra many
  -- That many turns would take the whole track, less a rest that is at most half of it.
  have far : 2 * v * (track / v) ≤ track :=
    (Nat.mul_le_mul_right _ (Nat.le_of_not_lt many)).trans within
  have double : 2 * v * (track / v) = 2 * (track / v * v) := by ring
  omega

/-- One that is level with another has had no more turns than its share, up to two weights. -/
theorem turns_le_share (positive : 0 < v) (positive' : 0 < w) (fine : 4 * (v * w) ≤ track)
    (level : m * (track / v) ≤ (n + 1) * (track / w)) (within : (n + 1) * (track / w) ≤ track) :
    m * w ≤ n * v + 2 * max v w := by
  have few : n + 1 < 2 * w := turns_lt positive' (by nlinarith) within
  have near : track < track / v * v + v := track_lt positive
  by_contra more
  have ahead : n * v + 2 * v < m * w := by
    have := le_max_left v w
    omega
  -- Measured on the track, the turns of the one reach beyond what the other may have covered.
  have reach : (n * v + 2 * v) * (track / v) ≤ (n + 1) * track := by
    calc (n * v + 2 * v) * (track / v) ≤ m * w * (track / v) :=
          Nat.mul_le_mul_right _ ahead.le
      _ = m * (track / v) * w := by ring
      _ ≤ (n + 1) * (track / w) * w := Nat.mul_le_mul_right _ level
      _ = (n + 1) * (track / w * w) := by ring
      _ ≤ (n + 1) * track := Nat.mul_le_mul_left _ (Nat.div_mul_le_self track w)
  have covered : (n + 2) * track ≤ (n * v + 2 * v) * (track / v) + (n + 2) * v := by
    calc (n + 2) * track ≤ (n + 2) * (track / v * v + v) := Nat.mul_le_mul_left _ near.le
      _ = (n * v + 2 * v) * (track / v) + (n + 2) * v := by ring
  have rest : (n + 2) * v ≤ 2 * (v * w) := by
    calc (n + 2) * v ≤ 2 * w * v := Nat.mul_le_mul_right _ few
      _ = 2 * (v * w) := by ring
  have whole : (n + 2) * track = (n + 1) * track + track := by ring
  have some : 0 < v * w := Nat.mul_pos positive positive'
  omega

theorem stride_lt (positive : 0 < w) (more : w < v) (fine : 4 * (v * w) ≤ track) :
    track / v < track / w := by
  have near : track < track / w * w + w := track_lt positive
  have covered : track / v * v ≤ track := Nat.div_mul_le_self track v
  have long : w ≤ track / v := (Nat.le_div_iff_mul_le (by omega)).mpr (by nlinarith)
  -- Otherwise the longer stride would leave no less of the track than the weight.
  by_contra shorter
  have : track / w * w ≤ track / v * w := Nat.mul_le_mul_right _ (Nat.le_of_not_lt shorter)
  have : track / v * (w + 1) ≤ track / v * v := Nat.mul_le_mul_left _ more
  rw [Nat.mul_succ] at this
  omega

end Etiam.Stride
