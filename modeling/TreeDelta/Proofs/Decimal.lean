import TreeDelta.Text.Decimal
set_option autoImplicit false

namespace TreeDelta.Text

theorem isDigit_of_mem_toDigits {n : Nat} {c : Char} (h : c ∈ Nat.toDigits 10 n) : isDigit c = true :=
  Nat.isDigit_of_mem_toDigits (by decide) (by decide) h

theorem natOfChars?_toDigits (n : Nat) : natOfChars? (Nat.toDigits 10 n) = some n := by
  have hall : (Nat.toDigits 10 n).all isDigit = true :=
    List.all_eq_true.2 fun _ => isDigit_of_mem_toDigits
  have hvalue : ofDigits 10 ((Nat.toDigits 10 n).map digitValue) = n := by
    rw [ofDigits, List.foldl_map]
    exact Nat.ofDigitChars_toDigits (by decide) (by decide)
  rw [natOfChars?, hall, List.isEmpty_eq_false_iff.2 Nat.toDigits_ne_nil, hvalue]
  rfl

end TreeDelta.Text
