import Mathlib.Data.Nat.Digits.Lemmas
import Mathlib.Tactic.Common

/-! # Hexadecimal numbers

A number is written with at least as many digits as are asked for. Read as a number again, its
digits give it back, and the first of them give a quotient of it.
-/

namespace TpchBench

abbrev Bytes := List UInt8

def hexDigit (d : ℕ) : UInt8 :=
  if d < 10 then .ofNat (48 + d) else .ofNat (87 + d)

def hexVal (b : UInt8) : Option ℕ :=
  if 48 ≤ b ∧ b ≤ 57 then some (b.toNat - 48)
  else if 97 ≤ b ∧ b ≤ 102 then some (b.toNat - 87)
  else if 65 ≤ b ∧ b ≤ 70 then some (b.toNat - 55)
  else none

/-- A number with at least `k` digits. -/
def hexFormat (k n : ℕ) : Bytes := ((Nat.digitsAppend 16 k n).map hexDigit).reverse

def hexNumber (s : Bytes) : ℕ := s.foldl (fun v b => 16 * v + (hexVal b).getD 0) 0

theorem hexVal_hexDigit {d : ℕ} (h : d < 16) : hexVal (hexDigit d) = some d := by
  have hall : ∀ d < 16, hexVal (hexDigit d) = some d := by decide
  exact hall d h

theorem hexVal_of_mem_hexFormat {k n : ℕ} {b : UInt8} (h : b ∈ hexFormat k n) :
    (hexVal b).isSome := by
  rw [hexFormat, List.mem_reverse] at h
  obtain ⟨d, hd, rfl⟩ := List.mem_map.mp h
  rw [hexVal_hexDigit (Nat.lt_of_mem_digitsAppend (by decide) k d hd)]
  rfl

theorem length_hexFormat (k n : ℕ) :
    (hexFormat k n).length = max k (Nat.digits 16 n).length := by
  simp only [hexFormat, Nat.digitsAppend, List.length_reverse, List.length_map,
    List.length_append, List.length_replicate]
  omega

theorem length_hexFormat_of_lt {k n : ℕ} (h : n < 16 ^ k) : (hexFormat k n).length = k := by
  rw [hexFormat, List.length_reverse, List.length_map, Nat.length_digitsAppend (by decide) k h]

theorem hexNumber_eq_ofDigits (s : Bytes) :
    hexNumber s = Nat.ofDigits 16 (s.reverse.map fun b => (hexVal b).getD 0) := by
  rw [hexNumber, Nat.ofDigits_eq_foldr, List.foldr_map, List.foldr_reverse]
  congr 1
  funext v b
  exact Nat.add_comm _ _

theorem hexNumber_reverse_map {ds : List ℕ} (h : ∀ d ∈ ds, d < 16) :
    hexNumber (ds.map hexDigit).reverse = Nat.ofDigits 16 ds := by
  rw [hexNumber_eq_ofDigits, List.reverse_reverse, List.map_map]
  congr 1
  refine (List.map_congr_left fun d hd => ?_).trans (List.map_id ds)
  rw [Function.comp_apply, hexVal_hexDigit (h d hd)]
  rfl

theorem hexNumber_take_hexFormat (k n e : ℕ) :
    hexNumber ((hexFormat k n).take ((hexFormat k n).length - e)) = n / 16 ^ e := by
  have hlt : ∀ d ∈ Nat.digitsAppend 16 k n, d < 16 := fun d =>
    Nat.lt_of_mem_digitsAppend (by decide) k d
  have htake : (hexFormat k n).take ((hexFormat k n).length - e) =
      (((Nat.digitsAppend 16 k n).drop e).map hexDigit).reverse := by
    rw [hexFormat, List.length_reverse, ← List.reverse_drop, List.map_drop]
  rw [htake, hexNumber_reverse_map fun d hd => hlt d (List.mem_of_mem_drop hd),
    ← Nat.ofDigits_div_pow_eq_ofDigits_drop e (by decide) _ hlt, Nat.digitsAppend,
    Nat.ofDigits_append_replicate_zero, Nat.ofDigits_digits]

/-- A number is read back as it was written. -/
theorem hexNumber_hexFormat (k n : ℕ) : hexNumber (hexFormat k n) = n := by
  have h := hexNumber_take_hexFormat k n 0
  rwa [Nat.sub_zero, List.take_length, pow_zero, Nat.div_one] at h

theorem hexNumber_replicate_append (e : ℕ) (s : Bytes) :
    hexNumber (List.replicate e 48 ++ s) = hexNumber s := by
  have hzero : (hexVal 48).getD 0 = 0 := by decide
  rw [hexNumber_eq_ofDigits, hexNumber_eq_ofDigits, List.reverse_append, List.reverse_replicate,
    List.map_append, List.map_replicate, hzero, Nat.ofDigits_append_replicate_zero]

end TpchBench
