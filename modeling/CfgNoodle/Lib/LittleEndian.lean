import Mathlib.Algebra.Group.Nat.Defs
import Mathlib.Tactic.Common

/-! # Little-endian numbers

Numbers of a fixed number of bytes, the least significant byte first. Reading and
writing are inverse to each other at every width. -/
namespace LittleEndian

/-- The last `n` bytes of a number. -/
def bytes : Nat → Nat → List UInt8
  | 0, _ => []
  | n + 1, x => UInt8.ofNat x :: bytes n (x / 256)

def value : List UInt8 → Nat
  | [] => 0
  | b :: bs => b.toNat + 256 * value bs

@[simp] theorem bytes_length : ∀ n x : Nat, (bytes n x).length = n
  | 0, _ => rfl
  | n + 1, x => congrArg (· + 1) (bytes_length n (x / 256))

theorem value_lt : ∀ bs : List UInt8, value bs < 256 ^ bs.length
  | [] => Nat.one_pos
  | b :: bs => by
    have hb : b.toNat < 256 := b.toNat_lt
    have hbs := value_lt bs
    rw [value, List.length_cons, Nat.pow_succ]
    omega

theorem value_bytes : ∀ {n x : Nat}, x < 256 ^ n → value (bytes n x) = x
  | 0, x, h => (Nat.lt_one_iff.mp h).symm
  | n + 1, x, h => by
    have hx : x / 256 < 256 ^ n := Nat.div_lt_of_lt_mul (by rwa [Nat.mul_comm, ← Nat.pow_succ])
    rw [bytes, value, value_bytes hx, UInt8.toNat_ofNat']
    exact Nat.mod_add_div x 256

theorem bytes_value : ∀ bs : List UInt8, bytes bs.length (value bs) = bs
  | [] => rfl
  | b :: bs => by
    have hb : b.toNat < 256 := b.toNat_lt
    rw [List.length_cons, bytes, value, show (b.toNat + 256 * value bs) / 256 = value bs by omega,
      bytes_value bs]
    congr 1
    refine UInt8.toNat_inj.mp ?_
    rw [UInt8.toNat_ofNat']
    show (b.toNat + 256 * value bs) % 256 = b.toNat
    omega

end LittleEndian
