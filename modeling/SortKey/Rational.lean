import SortKey.BigInteger

/-! Rationals in lowest terms: the numerator, then the positive denominator. Those with equal
denominators sort by numerator. -/
namespace SortKey.Rational

def append (q : Rat) : Writing Unit := do
  BigInteger.append q.num
  BigInteger.append q.den

def build (num den : Int) : Except Fault Rat :=
  if den ≤ 0 then .error (.malformed (.denominator den))
  else
    let q := mkRat num den.toNat
    if (q.den : Int) = den then .ok q else .error (.malformed (.notReduced num den))

def get (limits : Limits) (bs : Bytes) : Except Fault (Rat × Nat) := do
  let (num, n) ← BigInteger.get limits bs
  let (den, m) ← Slice.midway (BigInteger.get limits (bs.drop n))
  return (← build num den, n + m)

def read (limits : Limits) : Reading Rat := do
  let num ← BigInteger.read limits
  let den ← Reading.midway (BigInteger.read limits)
  build num den

end SortKey.Rational
