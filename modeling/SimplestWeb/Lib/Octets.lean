import Mathlib.Algebra.Group.Nat.Defs
import Mathlib.Data.List.Induction

/-!
# Octets

Numbers in network byte order, and the exclusive or with a key that is repeated.

* `ofBE_toBE` — a number that fits is read back.
* `xorKey_xorKey` — the key undoes itself.
-/

namespace SimplestWeb.Lib.Octets

variable {bs cs key : List UInt8}

/-! ## Network byte order -/

/-- The number that `bs` stands for, the most significant octet first. -/
def ofBE (bs : List UInt8) : Nat := bs.foldl (fun n b => 256 * n + b.toNat) 0

/-- The last `k` octets of a number. -/
def toBE : Nat → Nat → List UInt8
  | 0, _ => []
  | k + 1, n => toBE k (n / 256) ++ [UInt8.ofNat n]

theorem length_toBE (k n : Nat) : (toBE k n).length = k := by
  induction k generalizing n with
  | zero => rfl
  | succ k ih =>
    unfold toBE
    rw [List.length_append, ih, List.length_singleton]

theorem ofBE_concat (bs : List UInt8) (b : UInt8) : ofBE (bs ++ [b]) = 256 * ofBE bs + b.toNat := by
  unfold ofBE
  rw [List.foldl_append]
  rfl

/-- **Round trip.** -/
theorem ofBE_toBE {k n : Nat} (h : n < 256 ^ k) : ofBE (toBE k n) = n := by
  induction k generalizing n with
  | zero =>
    show 0 = n
    rw [Nat.pow_zero] at h
    omega
  | succ k ih =>
    have hdiv : n / 256 < 256 ^ k := by
      rw [Nat.pow_succ] at h
      exact Nat.div_lt_of_lt_mul (by omega)
    have hlast : (UInt8.ofNat n).toNat = n % 256 := UInt8.toNat_ofNat'
    unfold toBE
    rw [ofBE_concat, ih hdiv, hlast]
    exact Nat.div_add_mod n 256

/-! ## A repeated key -/

/-- Every octet is changed by the octet of the key whose turn it is. -/
def xorKey (key bs : List UInt8) : List UInt8 :=
  bs.mapIdx fun i b => b ^^^ key.getD (i % key.length) 0

theorem length_xorKey (key bs : List UInt8) : (xorKey key bs).length = bs.length :=
  List.length_mapIdx

/-- **The key undoes itself.** -/
theorem xorKey_xorKey (key bs : List UInt8) : xorKey key (xorKey key bs) = bs := by
  unfold xorKey
  rw [List.mapIdx_mapIdx]
  have hid : ∀ (i : Nat) (b : UInt8),
      (b ^^^ key.getD (i % key.length) 0) ^^^ key.getD (i % key.length) 0 = b := by
    intro i b
    rw [UInt8.xor_assoc, UInt8.xor_self, UInt8.xor_zero]
  refine List.ext_getElem List.length_mapIdx fun i h₁ h₂ => ?_
  rw [List.getElem_mapIdx]
  exact hid i bs[i]

end SimplestWeb.Lib.Octets
