import CoolBackend.Wire.OfItem
import CoolBackend.Wire.OfProgram
import CoolBackend.Wire.ToItem
import CoolBackend.Wire.ToProgram

/-!
The wire format: records of a program in canonical CBOR.
-/
namespace CoolBackend

/-- Why bytes hold no program. `nullEntry` is the one that no message describes: reading runs into a
missing entry of a list and stops there. -/
inductive DecodeError where
  | malformed (fault : Cbor.Fault)
  | nullEntry
  | inClass (index : Nat) (error : Wire.ClassError)
  deriving DecidableEq

def DecodeError.message : DecodeError → String
  | malformed fault => s!"compiler: unmarshal program: {fault.message}"
  | nullEntry => "null entry"
  | inClass index error => s!"compiler: class {index}: {error.message}"

def DecodeError.ofClass : Nat × Wire.ClassError → DecodeError
  | (_, .nullEntry) => nullEntry
  | (index, error) => inClass index error

namespace Program

def encode (p : Program) : Bytes := (Wire.Program.ofProgram p).toItem.encode

def decode (bytes : Bytes) : Except DecodeError Program := do
  let item ← (Cbor.parse bytes).mapError .malformed
  let records ← (Wire.readProgram item).mapError .malformed
  records.toProgram.mapError DecodeError.ofClass

end Program

end CoolBackend
