import Mathlib

/-! Fixed-width byte strings for machine integers, and their layout in storage pages. -/

namespace Etiam

/-- A string of bytes as the host stores it. -/
abbrev Bytes := List UInt8

/-- The little-endian digits of a number in base 256, cut off at the given width. -/
def leBytes : Nat → Nat → Bytes
  | 0, _ => []
  | width + 1, value => UInt8.ofNat (value % 256) :: leBytes width (value / 256)

/-- The number a little-endian byte string spells. -/
def leValue : Bytes → Nat
  | [] => 0
  | byte :: rest => byte.toNat + 256 * leValue rest

@[simp] theorem leBytes_length (width value : Nat) : (leBytes width value).length = width := by
  -- The value shrinks by a factor of 256 at every step, so it stays quantified over.
  induction width generalizing value with
  | zero => rfl
  | succ width ih => simp [leBytes, ih]

theorem leValue_leBytes (width value : Nat) :
    leValue (leBytes width value) = value % 256 ^ width := by
  induction width generalizing value with
  | zero => simp [leBytes, leValue, Nat.mod_one]
  | succ width ih =>
    -- The low byte is the remainder and the rest is the same claim one width down.
    have low : (UInt8.ofNat (value % 256)).toNat = value % 256 := by simp
    simp only [leBytes, leValue, ih, low]
    rw [Nat.pow_succ, Nat.mul_comm (256 ^ width) 256, Nat.mod_mul]

theorem leBytes_leValue (bytes : Bytes) : leBytes bytes.length (leValue bytes) = bytes := by
  induction bytes with
  | nil => rfl
  | cons byte rest ih =>
    have small : byte.toNat < 256 := byte.toNat_lt
    -- Splitting off the low digit leaves the number the rest spells.
    have low : (byte.toNat + 256 * leValue rest) % 256 = byte.toNat := by omega
    have high : (byte.toNat + 256 * leValue rest) / 256 = leValue rest := by omega
    simp only [List.length_cons, leBytes, leValue, low, high, ih, UInt8.ofNat_toNat]

theorem leValue_lt (bytes : Bytes) : leValue bytes < 256 ^ bytes.length := by
  induction bytes with
  | nil => simp [leValue]
  | cons byte rest ih =>
    have small : byte.toNat < 256 := byte.toNat_lt
    simp only [leValue, List.length_cons, Nat.pow_succ]
    omega

/-- The bytes of a machine word, lowest first, as a copy of its memory shows them. -/
def wordBytes {width : Nat} (count : Nat) (word : BitVec width) : Bytes :=
  leBytes count word.toNat

/-- The machine word that a run of bytes spells, lowest byte first. -/
def bytesWord (width : Nat) (bytes : Bytes) : BitVec width :=
  BitVec.ofNat width (leValue bytes)

@[simp] theorem wordBytes_length {width : Nat} (count : Nat) (word : BitVec width) :
    (wordBytes count word).length = count := leBytes_length count word.toNat

@[simp] theorem bytesWord_wordBytes {width count : Nat} (fits : 2 ^ width = 256 ^ count)
    (word : BitVec width) : bytesWord width (wordBytes count word) = word := by
  -- The word lies below the bound of its width, so nothing is cut off.
  have bound : word.toNat < 256 ^ count := fits ▸ word.isLt
  simp [bytesWord, wordBytes, leValue_leBytes, Nat.mod_eq_of_lt bound]

theorem wordBytes_bytesWord {width : Nat} (bytes : Bytes) (fits : 2 ^ width = 256 ^ bytes.length) :
    wordBytes bytes.length (bytesWord width bytes) = bytes := by
  have bound : leValue bytes < 2 ^ width := fits ▸ leValue_lt bytes
  simp [bytesWord, wordBytes, Nat.mod_eq_of_lt bound, leBytes_leValue]

/-- The window of a byte string that one page of the given width covers. -/
def pageWindow (width : Nat) (data : Bytes) (page : Nat) : Bytes :=
  (data.drop (width * page)).take width

theorem flatMap_pageWindow (width : Nat) (data : Bytes) (count : Nat) :
    (List.range count).flatMap (pageWindow width data) = data.take (width * count) := by
  -- Every further page appends the window that starts where the last one ended.
  induction count with
  | zero => simp
  | succ count ih =>
    rw [List.range_succ, List.flatMap_append, ih]
    simp [pageWindow, Nat.mul_succ, List.take_add]

theorem pageWindow_length (width : Nat) (data : Bytes) (page : Nat) :
    (pageWindow width data page).length = min width (data.length - width * page) := by
  simp [pageWindow]

end Etiam
