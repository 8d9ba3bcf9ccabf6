import SortKey.Fault

/-! Byte sinks. A sink takes as much of what it is offered as it likes, and may interrupt an offer,
which is then made again; in the end it takes everything or refuses for good. -/
namespace SortKey

/-- `grants` are the most bytes that each coming offer takes, an interruption being a grant of none;
after them the sink refuses with a text, or takes everything. -/
structure Sink where
  taken : Bytes := []
  grants : List Nat := []
  refusal : Option String := none

namespace Sink

def offer (refusal : Option String) : List Nat → Bytes → Bytes × List Nat × Option String
  | grants, [] => ([], grants, none)
  | [], bs =>
    match refusal with
    | none => (bs, [], none)
    | some text => ([], [], some text)
  | g :: grants, bs =>
    let (more, left, failure) := offer refusal grants (bs.drop g)
    (bs.take g ++ more, left, failure)

/-- Offers the bytes until all are taken. -/
def writeAll (bs : Bytes) (s : Sink) : Except Fault Unit × Sink :=
  let (accepted, left, failure) := offer s.refusal s.grants bs
  let s' := { s with taken := s.taken ++ accepted, grants := left }
  match failure with
  | none => (.ok (), s')
  | some text => (.error (.device text), s')

end Sink
end SortKey
