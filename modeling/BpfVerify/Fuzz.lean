import BpfVerify.DiffSeed

/-!
# Fuzz inputs

The draws of `userspace/fuzz.h`, whose mixer and corner values agree with those of
`tools/diff_seed.h`.
-/
namespace BpfVerify.Fuzz
open DiffSeed

structure FuzzInput where
  /-- `splitmix64` state, reseeded per iteration -/
  state : UInt64
  draw : ℤ
  iter : ℤ
  deriving DecidableEq

def fuzzNext (input : FuzzInput) : UInt64 × FuzzInput :=
  let z := input.state + 0x9e3779b97f4a7c15
  let input := { input with state := z }
  let z := (z ^^^ (z >>> 30)) * 0xbf58476d1ce4e5b9
  let z := (z ^^^ (z >>> 27)) * 0x94d049bb133111eb
  (z ^^^ (z >>> 31), input)

lemma fuzzNext_eq (input : FuzzInput) :
    fuzzNext input = (diffMix (input.state + 0x9e3779b97f4a7c15),
      { input with state := input.state + 0x9e3779b97f4a7c15 }) := rfl

def fuzzCorners : List UInt64 :=
  [0, 1, 2, 3, ~~~0, ~~~0 - 1,
    0x8000000000000000, 0x7fffffffffffffff,
    0xffffffff, 0x100000000, 0x80000000, 0x7fffffff,
    0xff, 0x100, 0xffff, 0x10000]

def fuzzNCorners : ℕ := fuzzCorners.length

def fuzzCorner (i : ℕ) : UInt64 := fuzzCorners.getD (i % fuzzNCorners) 0

/-- The two tables of corner values hold the same. -/
lemma fuzzCorner_eq (i : ℕ) : fuzzCorner i = corner i := rfl

/-- Early iterations sweep the corner values in their first two draws. -/
def fuzzU64 (input : FuzzInput) : UInt64 × FuzzInput :=
  let d := input.draw
  let input := { input with draw := input.draw + 1 }
  if input.iter < ((fuzzNCorners * fuzzNCorners : ℕ) : ℤ) then
    if d = 0 then (fuzzCorner (toSize input.iter), input)
    else if d = 1 then (fuzzCorner (toSize input.iter / fuzzNCorners), input)
    else fuzzNext input
  else fuzzNext input

/-- A value in `[lo, hi]`. The modulus is zero for the full range only, where C has no result. -/
def fuzzRange (input : FuzzInput) (lo hi : UInt64) : Option (UInt64 × FuzzInput) :=
  if hi ≤ lo then some (lo, input)
  else if hi - lo + 1 = 0 then none
  else
    let (x, input) := fuzzU64 input
    some (lo + x % (hi - lo + 1), input)

lemma fuzzRange_zero (input : FuzzInput) {hi : UInt64} (h : hi ≠ 0) (hhi : hi + 1 ≠ 0) :
    fuzzRange input 0 hi =
      some ((fuzzU64 input).1 % (hi + 1), (fuzzU64 input).2) := by
  have hpos : ¬ hi ≤ 0 := fun hle => h (UInt64.le_zero_iff.mp hle)
  rw [fuzzRange, if_neg hpos, UInt64.sub_zero, if_neg hhi]
  obtain ⟨x, next⟩ := fuzzU64 input
  show some (0 + x % (hi + 1), next) = _
  rw [UInt64.zero_add]

end BpfVerify.Fuzz
