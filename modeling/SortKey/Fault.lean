import SortKey.NilOrder
import SortKey.Utf8
import SortKey.BigFloat.Basic

/-! What can go wrong with a key. Each fault is a cause; its wording is `Fault.message`. -/
namespace SortKey

/-- How an encoding breaks the rules of its format. -/
inductive Malformation where
  | leadingZero
  | denominator (value : Int)
  | notReduced (num den : Int)
  | field (value : Int)
  | exponent
  | precision (value : Int)
  | mantissaLength (length precision needed : Nat)
  | notNormalized
  | refused (refusal : BigFloat.Refusal)
  | emptyElement
  | other (text : String)
  deriving DecidableEq, Repr

/-- Why a value has no encoding. -/
inductive Unwritable where
  | magnitudeLength
  | mantissaBits (bits precision : Nat)
  | mantissaLength (length needed : Nat)
  | other (text : String)
  deriving DecidableEq, Repr

/-- A failure of what a codec runs on: the byte source or sink reports an error, or memory has no room
for so many bytes. The second is no error that a caller gets to see: the program stops there. -/
inductive Breakdown where
  | io (text : String)
  | memory (bytes : Nat)
  deriving DecidableEq, Repr

instance : Coe String Breakdown := ⟨.io⟩

/-- `endOfInput` means that the input ended before the first byte of a value, `truncated` that it
ended after it. -/
inductive Fault where
  | endOfInput
  | truncated
  | unterminated
  | unknownPresence (byte : UInt8)
  | foreignNil (found : UInt8) (expected : NilOrder)
  | notBoolean (byte : UInt8)
  | unknownKind (kind : Int)
  | unknownRounding (byte : UInt8)
  | tooLarge (size limit : Nat)
  | malformed (cause : Malformation)
  | trailing (count : Nat)
  | notUtf8 (flaw : Utf8.Flaw)
  | notBigFloat (refusal : BigFloat.Refusal)
  | unwritable (cause : Unwritable)
  | device (breakdown : Breakdown)
  deriving DecidableEq, Repr

def Malformation.message : Malformation → String
  | .leadingZero => "big integer magnitude has a leading zero byte"
  | .denominator d => s!"rational denominator {d} is not positive"
  | .notReduced num den => s!"rational {num}/{den} is not in lowest terms"
  | .field v => s!"field {v} cannot be negated"
  | .exponent => "big float exponent is out of range"
  | .precision p => s!"big float precision {p} is invalid"
  | .mantissaLength length p needed =>
    s!"big float mantissa has {length} bytes but precision {p} needs {needed}"
  | .notNormalized => "big float mantissa is not normalized"
  | .refused refusal => "Invalid big float: " ++ refusal.message
  | .emptyElement => "sequence element consumed no input"
  | .other text => text

def Unwritable.message : Unwritable → String
  | .magnitudeLength => "integer magnitude length overflows i64"
  | .mantissaBits bits p => s!"big float mantissa has {bits} bits but precision {p}"
  | .mantissaLength length needed =>
    s!"big float mantissa has {length} bytes where {needed} were expected"
  | .other text => text

def Breakdown.message : Breakdown → String
  | .io text => "I/O error: " ++ text
  | .memory _ => "capacity overflow"

namespace Fault

def byteText (b : UInt8) : String := "0x" ++ Bytes.hexByte b

def message : Fault → String
  | .endOfInput => "Reached the end of the input before reading a value"
  | .truncated => "Reached the end of the input part way through a value"
  | .unterminated => "Unterminated buffer: no unescaped terminator was found"
  | .unknownPresence b => "Unrecognized prefix byte " ++ byteText b
  | .foreignNil b order =>
    "Prefix byte " ++ byteText b ++ " does not belong to the " ++ order.name ++ " ordering"
  | .notBoolean b => "Invalid boolean byte " ++ byteText b
  | .unknownKind kind => s!"Invalid big float kind {kind}"
  | .unknownRounding b => "Invalid rounding mode byte " ++ byteText b
  | .tooLarge size limit => s!"Encoded length {size} exceeds the maximum of {limit} bytes"
  | .malformed cause => "Malformed encoding: " ++ cause.message
  | .trailing count => s!"{count} unexpected trailing bytes after the encoded value"
  | .notUtf8 flaw => "Invalid UTF-8 in string value: " ++ flaw.message
  | .notBigFloat refusal => "Invalid big float: " ++ refusal.message
  | .unwritable cause => "The key encoder encountered unreachable logic: " ++ cause.message
  | .device breakdown => breakdown.message

/-- Once a byte of a value has been used, the end of the input cuts that value off. -/
def midway : Fault → Fault
  | .endOfInput => .truncated
  | fault => fault

def isEndOfInput : Fault → Bool
  | .endOfInput => true
  | _ => false

@[simp] theorem midway_ne_endOfInput (e : Fault) : e.midway ≠ .endOfInput := by
  cases e <;> simp [midway]

@[simp] theorem midway_midway (e : Fault) : e.midway.midway = e.midway := by
  cases e <;> rfl

theorem isEndOfInput_iff (e : Fault) : e.isEndOfInput = true ↔ e = .endOfInput := by
  cases e <;> simp [isEndOfInput]

end Fault

def RoundingMode.ofByte (b : UInt8) : Except Fault RoundingMode :=
  match RoundingMode.ofByte? b with
  | some mode => .ok mode
  | none => .error (.unknownRounding b)

end SortKey
