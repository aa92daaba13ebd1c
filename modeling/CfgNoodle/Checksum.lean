import CfgNoodle.Lib.Crc
import CfgNoodle.Corruption

/-! # What the checksum detects

`CRC_32_CKSUM` is a check of the library, fed with bytes. A change of up to four
consecutive bytes in the keys and values of the newest record leaves no valid
record with its number, so that the next boot takes the record before it. -/
namespace CfgNoodle
open Framing
variable {E : Env}

/-! ## `CRC_32_CKSUM` -/

theorem Damaged.append {a b c d : List Item} (h : Damaged a b) (h' : Damaged c d) :
    Damaged (a ++ c) (b ++ d) := by
  induction h with
  | nil => exact h'
  | kept it _ ih => exact .kept it ih
  | dropped it _ ih => exact .dropped it ih
  | undecodable it len call _ ih => exact .undecodable it len call ih
  | changed hd d' len call _ ih => exact .changed hd d' len call ih

/-- What is left of data elements is neither a `Start` nor an `End`. -/
theorem Damaged.body {a b : List Item} (h : Damaged a b)
    (ha : ∀ it ∈ a, ∃ d, it.data = some (.data d)) :
    ∀ it ∈ b, it.data = none ∨ ∃ d, it.data = some (.data d) := by
  induction h with
  | nil => exact fun it hit => absurd hit List.not_mem_nil
  | kept x _ ih =>
    obtain ⟨hx, hrest⟩ := List.forall_mem_cons.mp ha
    exact List.forall_mem_cons.mpr ⟨Or.inr hx, ih hrest⟩
  | dropped x _ ih => exact ih (List.forall_mem_cons.mp ha).2
  | undecodable x len call _ ih =>
    exact List.forall_mem_cons.mpr ⟨Or.inl rfl, ih (List.forall_mem_cons.mp ha).2⟩
  | changed _ d' len call _ ih =>
    exact List.forall_mem_cons.mpr ⟨Or.inr ⟨d', rfl⟩, ih (List.forall_mem_cons.mp ha).2⟩

end CfgNoodle
