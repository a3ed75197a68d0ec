import Mathlib.Data.List.Basic
import Mathlib.Tactic.Ring
import Mathlib.Tactic.Linarith

/-!
# Words as sequences of bytes

An `n`-byte word is stored least significant byte first. Reversing the bytes gives the other
byte order, so the conversion between the two is its own inverse, and a word that is converted
once on one side and once on the other arrives unchanged.
-/
namespace BourseServer.Bytes

/-- The `n` low bytes of `x`, least significant first. -/
def split : Nat → Nat → List UInt8
  | 0, _ => []
  | n + 1, x => UInt8.ofNat (x % 256) :: split n (x / 256)

/-- The number whose bytes, least significant first, are `bs`. -/
def combine : List UInt8 → Nat
  | [] => 0
  | b :: bs => b.toNat + 256 * combine bs

@[simp] theorem length_split (n x : Nat) : (split n x).length = n := by
  induction n generalizing x with
  | zero => rfl
  | succ n ih => simp [split, ih]

theorem combine_lt (bs : List UInt8) : combine bs < 256 ^ bs.length := by
  induction bs with
  | nil => simp [combine]
  | cons b bs ih =>
    have hb := b.toNat_lt
    simp only [combine, List.length_cons, pow_succ]
    omega

theorem combine_split {n x : Nat} (h : x < 256 ^ n) : combine (split n x) = x := by
  induction n generalizing x with
  | zero => simp [split, combine]; simp at h; omega
  | succ n ih =>
    have hlt : x / 256 < 256 ^ n := by
      rw [pow_succ] at h
      omega
    simp only [split, combine, ih hlt, UInt8.toNat_ofNat']
    omega

theorem split_combine (bs : List UInt8) : split bs.length (combine bs) = bs := by
  induction bs with
  | nil => rfl
  | cons b bs ih =>
    have hb : b.toNat < 256 := b.toNat_lt
    have hmod : (b.toNat + 256 * combine bs) % 256 = b.toNat := by omega
    have hdiv : (b.toNat + 256 * combine bs) / 256 = combine bs := by omega
    simp [split, combine, hmod, hdiv, ih]

/-- The word with the bytes of `x` in the opposite order. -/
def swap (n x : Nat) : Nat := combine (split n x).reverse

theorem swap_lt (n x : Nat) : swap n x < 256 ^ n := by
  simpa [swap] using combine_lt (split n x).reverse

theorem split_swap (n x : Nat) : split n (swap n x) = (split n x).reverse := by
  simpa [swap] using split_combine (split n x).reverse

theorem swap_swap {n x : Nat} (h : x < 256 ^ n) : swap n (swap n x) = x := by
  rw [swap, split_swap, List.reverse_reverse, combine_split h]

/-! ## Words of a fixed width -/

def bytes16 (x : UInt16) : List UInt8 := split 2 x.toNat
def bytes32 (x : UInt32) : List UInt8 := split 4 x.toNat
def word16 (bs : List UInt8) : UInt16 := UInt16.ofNat (combine bs)
def word32 (bs : List UInt8) : UInt32 := UInt32.ofNat (combine bs)
def swap16 (x : UInt16) : UInt16 := UInt16.ofNat (swap 2 x.toNat)
def swap32 (x : UInt32) : UInt32 := UInt32.ofNat (swap 4 x.toNat)

@[simp] theorem length_bytes16 (x : UInt16) : (bytes16 x).length = 2 := length_split _ _
@[simp] theorem length_bytes32 (x : UInt32) : (bytes32 x).length = 4 := length_split _ _

@[simp] theorem word16_bytes16 (x : UInt16) : word16 (bytes16 x) = x := by
  rw [word16, bytes16, combine_split x.toNat_lt, UInt16.ofNat_toNat]

@[simp] theorem word32_bytes32 (x : UInt32) : word32 (bytes32 x) = x := by
  rw [word32, bytes32, combine_split x.toNat_lt, UInt32.ofNat_toNat]

theorem bytes16_word16 {bs : List UInt8} (h : bs.length = 2) : bytes16 (word16 bs) = bs := by
  have hlt : combine bs < 2 ^ 16 := by simpa [h] using combine_lt bs
  rw [bytes16, word16, UInt16.toNat_ofNat_of_lt' hlt, ← h, split_combine]

theorem bytes32_word32 {bs : List UInt8} (h : bs.length = 4) : bytes32 (word32 bs) = bs := by
  have hlt : combine bs < 2 ^ 32 := by simpa [h] using combine_lt bs
  rw [bytes32, word32, UInt32.toNat_ofNat_of_lt' hlt, ← h, split_combine]

@[simp] theorem swap16_swap16 (x : UInt16) : swap16 (swap16 x) = x := by
  have hlt : swap 2 x.toNat < 2 ^ 16 := by simpa using swap_lt 2 x.toNat
  rw [swap16, swap16, UInt16.toNat_ofNat_of_lt' hlt, swap_swap x.toNat_lt, UInt16.ofNat_toNat]

@[simp] theorem swap32_swap32 (x : UInt32) : swap32 (swap32 x) = x := by
  have hlt : swap 4 x.toNat < 2 ^ 32 := by simpa using swap_lt 4 x.toNat
  rw [swap32, swap32, UInt32.toNat_ofNat_of_lt' hlt, swap_swap x.toNat_lt, UInt32.ofNat_toNat]

theorem swap32_injective {x y : UInt32} (h : swap32 x = swap32 y) : x = y := by
  rw [← swap32_swap32 x, h, swap32_swap32]

/-- A block of bytes after `new` has been stored at its start. -/
def overlay (old new : List UInt8) : List UInt8 := new ++ old.drop new.length

theorem overlay_full {old new : List UInt8} (h : old.length ≤ new.length) :
    overlay old new = new := by
  rw [overlay, List.drop_eq_nil_of_le h, List.append_nil]

end BourseServer.Bytes
