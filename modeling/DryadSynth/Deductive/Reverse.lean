import DryadSynth.Enumerate.Algo

/-!
# Reverse lookup

`ReverseRule` of `deductive/reverse.rs`: the operand that completes an expression to the
output is looked up in the map of the enumerator.
-/

namespace DryadSynth

/-- `ReverseRule`. -/
structure ReverseRule where
  add : Bool
  xor : Bool

namespace ReverseRule

variable {N : ℕ}

/-- `ReverseRule::new`. -/
def new : ReverseRule := ⟨true, true⟩

/-- `ReverseRule::reverse`. -/
def reverse (r : ReverseRule) (algo : Algo N) (e : Expr) (v output : Bv N) : Option Expr :=
  match r.add, algo.map.lookup (output.sub v) with
  | true, some (some p) => some (.bin .add e p)
  | _, _ =>
      match r.xor, algo.map.lookup (output.xor v) with
      | true, some (some p) => some (.bin .xor e p)
      | _, _ => none

/-- A result of `reverse` is a sum or an exclusive or with an expression of the map. -/
theorem reverse_eq_some {r : ReverseRule} {algo : Algo N} {e e' : Expr} {v output : Bv N}
    (h : r.reverse algo e v output = some e') :
  (∃ p, algo.map.lookup (output.sub v) = some (some p) ∧ r.add = true ∧
      e' = .bin .add e p)
    ∨ ∃ p, algo.map.lookup (output.xor v) = some (some p) ∧ r.xor = true ∧
      e' = .bin .xor e p
  := by
  rw [reverse] at h
  split at h
  next p hadd hp =>
    left
    cases h
    use p, hp, hadd
  next =>
    split at h
    next p hxor hp =>
      right
      cases h
      use p, hp, hxor
    next => cases h

/-- When the expressions of the map have their keys as values, what `reverse` builds has the
output as its value. -/
theorem evalBv_of_reverse {env : Environ} {args : List (Bv N)} {r : ReverseRule}
    {algo : Algo N} {e e' : Expr} {v output : Bv N}
    (hmap : ∀ v e, algo.map.lookup v = some (some e) → e.evalBv env args = .ok v)
    (he : e.evalBv env args = .ok v) (h : r.reverse algo e v output = some e') :
  e'.evalBv env args = .ok output
  := by
  rcases reverse_eq_some h with ⟨p, hp, -, rfl⟩ | ⟨p, hp, -, rfl⟩
  · have hp := hmap _ p hp
    apply ExprIn.evalBv_bin.mpr
    use v, he, output.sub v, hp
    apply congrArg Except.ok
    funext i
    show v i + (output i - v i) = output i
    rw [BitVec.add_comm, BitVec.sub_add_cancel]
  · have hp := hmap _ p hp
    apply ExprIn.evalBv_bin.mpr
    use v, he, output.xor v, hp
    apply congrArg Except.ok
    funext i
    show v i ^^^ (output i ^^^ v i) = output i
    rw [BitVec.xor_comm (output i), ← BitVec.xor_assoc, BitVec.xor_self, BitVec.zero_xor]

end ReverseRule

end DryadSynth
