import Mathlib.Tactic.SplitIfs
import TreeDelta.Proofs.PatchReading
import TreeDelta.Proofs.PathOrder
set_option autoImplicit false

namespace TreeDelta

theorem compare_byte_cons {a b : Nat} (ha : a < 256) (hb : b < 256) (l m : Bytes) :
    compare (UInt8.ofNat a :: l) (UInt8.ofNat b :: m) = .lt ↔ a < b ∨ a = b ∧ compare l m = .lt := by
  have hlt : compare (UInt8.ofNat a) (UInt8.ofNat b) = .lt ↔ a < b := by
    refine (compareOfLessAndEq_eq_lt (x := UInt8.ofNat a) (y := UInt8.ofNat b)).trans ?_
    rw [UInt8.lt_iff_toNat_lt, UInt8.toNat_ofNat_of_lt' ha, UInt8.toNat_ofNat_of_lt' hb]
  have heq : compare (UInt8.ofNat a) (UInt8.ofNat b) = .eq ↔ a = b := by
    rw [Std.LawfulEqCmp.compare_eq_iff_eq, ← UInt8.toNat_inj, UInt8.toNat_ofNat_of_lt' ha,
      UInt8.toNat_ofNat_of_lt' hb]
  rw [List.compare_cons_cons, Ordering.then_eq_lt, hlt, heq]

theorem compare_utf8EncodeChar {c d : Char} (h : c < d) (l m : Bytes) :
    compare (String.utf8EncodeChar c ++ l) (String.utf8EncodeChar d ++ m) = .lt := by
  have hlt : c.val.toNat < d.val.toNat := h
  have hbound : d.val.toNat < 0x110000 := by
    have hvalid : d.val.isValidChar := d.valid
    rcases hvalid with h | h <;> omega
  -- A form of several bytes has the digits of the code point to the base 64.
  have hdigits (n : Nat) (hn : n < 0x110000) :
      n / 64 / 64 = n / 4096 ∧ n / 4096 / 64 = n / 262144 ∧ n / 262144 % 8 = n / 262144 := by omega
  have hc := hdigits c.val.toNat (hlt.trans hbound)
  have hd := hdigits d.val.toNat hbound
  unfold String.utf8EncodeChar
  dsimp only
  split_ifs <;> simp (disch := omega) only [List.cons_append, List.nil_append, compare_byte_cons] <;> omega

theorem compare_flatMap_utf8EncodeChar {cs ds : List Char} (h : cs < ds) :
    compare (cs.flatMap String.utf8EncodeChar) (ds.flatMap String.utf8EncodeChar) = .lt := by
  induction h with
  | @nil d ds =>
    obtain ⟨b, l, hbytes⟩ := List.exists_cons_of_ne_nil (String.utf8EncodeChar_ne_nil (c := d))
    rw [List.flatMap_cons, hbytes, List.flatMap_nil]
    rfl
  | @rel c cs d ds h =>
    rw [List.flatMap_cons, List.flatMap_cons]
    exact compare_utf8EncodeChar h _ _
  | @cons c cs ds _ ih =>
    rw [List.flatMap_cons, List.flatMap_cons, compare_append_left, ih]

theorem Bytes.compare_ofString (s t : String) : compare (ofString s) (ofString t) = compare s t := by
  have hlt (s t : String) (h : compare s t = .lt) : compare (ofString s) (ofString t) = .lt := by
    rw [ofString_eq, ofString_eq]
    exact compare_flatMap_utf8EncodeChar (compareOfLessAndEq_eq_lt (x := s) (y := t) |>.1 h)
  cases h : compare s t with
  | lt => exact hlt s t h
  | eq =>
    rw [Std.LawfulEqCmp.eq_of_compare h]
    exact Std.ReflCmp.compare_self
  | gt => exact Std.OrientedCmp.gt_of_lt (hlt t s (Std.OrientedCmp.lt_of_gt h))

end TreeDelta
