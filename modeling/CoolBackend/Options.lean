import CoolBackend.Text.Quoted

/-!
The collector that a program runs with, and whether it collects at every allocation.
-/
namespace CoolBackend

inductive GcMode where
  | off
  | generational
  | stopAndCopy
  | other (code : Int)
  deriving DecidableEq

namespace GcMode

def ofCode : Int → GcMode
  | 0 => off
  | 1 => generational
  | 2 => stopAndCopy
  | code => other code

def code : GcMode → Int
  | off => 0
  | generational => 1
  | stopAndCopy => 2
  | other code => code

def name : GcMode → String
  | off => "none"
  | generational => "generational"
  | stopAndCopy => "stop-and-copy"
  | other code => s!"GCMode({code})"

def initializer : GcMode → String
  | generational => "_GenGC_Init"
  | stopAndCopy => "_SCGC_Init"
  | off | other _ => "_NoGC_Init"

def collector : GcMode → String
  | generational => "_GenGC_Collect"
  | stopAndCopy => "_SCGC_Collect"
  | off | other _ => "_NoGC_Collect"

end GcMode

/-- A collector was asked for by a name that none has. -/
structure UnknownCollector where
  name : String
  deriving DecidableEq

def UnknownCollector.message (e : UnknownCollector) : String :=
  s!"unknown garbage collector {Text.quoted e.name} (want none, generational or stop-and-copy)"

/-- The collector of a name; the empty name asks for none. -/
def GcMode.parse (name : String) : Except UnknownCollector GcMode :=
  if name = "" then .ok off
  else match [off, generational, stopAndCopy].find? (·.name = name) with
    | some mode => .ok mode
    | none => .error ⟨name⟩

structure Options where
  gc : GcMode := .off
  gcTest : Bool := false
  deriving DecidableEq

end CoolBackend
