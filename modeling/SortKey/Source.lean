import SortKey.Bytes

/-! Byte sources. A source hands out its bytes in pieces of its own choosing, may interrupt a request,
which is then simply made again, and in the end closes, fails for good, or goes on for ever. Main
statements: a request takes the next bytes in order, however they are cut up, and leaves the rest. -/
namespace SortKey

/-- A piece holds at least one byte. -/
inductive Delivery where
  | piece (first : UInt8) (rest : Bytes)
  | interruption

/-- What follows the deliveries. `endless` gives the byte at each position of the whole stream. -/
inductive Ending where
  | closed
  | failing (text : String)
  | endless (byteAt : Nat → UInt8)

structure Source where
  deliveries : List Delivery
  ending : Ending
  delivered : Nat := 0

namespace Source

def piecewise : List Bytes → List Delivery
  | [] => []
  | [] :: more => piecewise more
  | (b :: bs) :: more => .piece b bs :: piecewise more

def ofBytes (bs : Bytes) : Source := ⟨piecewise [bs], .closed, 0⟩

def contents : List Delivery → Bytes
  | [] => []
  | .piece b bs :: more => b :: bs ++ contents more
  | .interruption :: more => contents more

/-- The next bytes, `n` of them if there are as many, and the deliveries that remain. -/
def gather : List Delivery → Nat → Bytes × List Delivery
  | [], _ => ([], [])
  | d :: ds, n =>
    if n = 0 then ([], d :: ds)
    else match d with
      | .interruption => gather ds n
      | .piece b bs =>
        let taken := (b :: bs).take n
        match (b :: bs).drop n with
        | c :: cs => (taken, .piece c cs :: ds)
        | [] =>
          let (more, left) := gather ds (n - taken.length)
          (taken ++ more, left)

/-- Whether a request was met in full or cut short. -/
inductive Stop where
  | filled
  | ended
  | failed (text : String)
  deriving DecidableEq

/-- Asks for `n` bytes until it has them or no more can come. -/
def draw (n : Nat) : StateM Source (Bytes × Stop) := fun s =>
  let (got, left) := gather s.deliveries n
  let reached := s.delivered + got.length
  if got.length = n then ((got, .filled), ⟨left, s.ending, reached⟩)
  else match s.ending with
    | .closed => ((got, .ended), ⟨left, s.ending, reached⟩)
    | .failing text => ((got, .failed text), ⟨left, s.ending, reached⟩)
    | .endless byteAt =>
      let more := (List.range (n - got.length)).map fun i => byteAt (reached + i)
      ((got ++ more, .filled), ⟨left, s.ending, s.delivered + n⟩)

@[simp] theorem contents_piecewise (ps : List Bytes) : contents (piecewise ps) = ps.flatten := by
  induction ps with
  | nil => rfl
  | cons p ps ih => cases p <;> simp [piecewise, contents, ih]

theorem gather_fst (ds : List Delivery) (n : Nat) : (gather ds n).1 = (contents ds).take n := by
  induction ds generalizing n with
  | nil => simp [gather, contents]
  | cons d ds ih =>
    by_cases hn : n = 0
    · simp [gather, hn]
    cases d with
    | interruption => simp [gather, hn, contents, ih]
    | piece b bs =>
      simp only [gather, hn, if_false, contents, List.take_append]
      split
      · next c cs h =>
        have hz : n - (bs.length + 1) = 0 := by
          have := congrArg List.length h
          simp only [List.length_drop, List.length_cons] at this
          omega
        simp [hz]
      · next h =>
        have hle : (b :: bs).length ≤ n := by simpa using h
        simp [ih, List.take_of_length_le hle]

theorem contents_gather_snd (ds : List Delivery) (n : Nat) :
    contents (gather ds n).2 = (contents ds).drop n := by
  induction ds generalizing n with
  | nil => simp [gather, contents]
  | cons d ds ih =>
    by_cases hn : n = 0
    · simp [gather, hn]
    cases d with
    | interruption => simp [gather, hn, contents, ih]
    | piece b bs =>
      simp only [gather, hn, if_false, contents, List.drop_append]
      split
      · next c cs h =>
        have hz : n - (bs.length + 1) = 0 := by
          have := congrArg List.length h
          simp only [List.length_drop, List.length_cons] at this
          omega
        have h' : (b :: bs).drop n = c :: cs := h
        simp [contents, h', hz]
      · next h =>
        have hle : (b :: bs).length ≤ n := by simpa using h
        simp [ih, h, List.take_of_length_le hle]

end Source
end SortKey
