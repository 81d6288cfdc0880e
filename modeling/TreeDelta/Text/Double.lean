set_option autoImplicit false

namespace TreeDelta.Text

def doubleBound : Nat := Nat.pow 2 1024 - Nat.pow 2 970

/-- `n` to 53 significant bits; of two equally near numbers the even one. -/
def roundToDouble (n : Nat) : Nat :=
  let unit := Nat.pow 2 (n.log2 - 52)
  let q := n / unit
  let r := n % unit
  (if unit < 2 * r || (unit = 2 * r && q % 2 = 1) then q + 1 else q) * unit

/-- `m * 10 ^ e` is too large for a double. Digits are counted first, so that no
huge power is computed. -/
def exceedsDouble (m : Nat) (e : Int) : Bool :=
  let size : Int := (Nat.toDigits 10 m).length + e
  if m = 0 || size < 300 then false
  else if size > 320 then true
  else if e ≥ 0 then m * Nat.pow 10 e.toNat ≥ doubleBound
  else m ≥ doubleBound * Nat.pow 10 (-e).toNat

/-- `m * 10 ^ e` is too large for a double when it is computed as the product of
two doubles. No power of ten above the 308th is one. -/
def productExceedsDouble (m : Nat) (e : Int) : Bool :=
  m != 0 && 0 ≤ e &&
    (308 < e || doubleBound ≤ roundToDouble m * roundToDouble (Nat.pow 10 e.toNat))

end TreeDelta.Text
