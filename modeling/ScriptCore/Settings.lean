import ScriptCore.Error
import ScriptCore.Json.Reading

/-!
# Settings

Two numbers tune a heap: how many registrations start a collection, and how deep values are written
out. They come from a JSON text, or from variables of the surroundings, and what is missing keeps
its default.
-/

namespace ScriptCore

structure Settings where
  gcThreshold : Nat
  maxDisplayDepth : Nat
deriving DecidableEq

namespace Settings

def default : Settings := ⟨Collector.defaultThreshold, Heap.defaultDisplayDepth⟩

def limit : Nat := UInt64.size

/-! ## From JSON -/

def setting? (fallback : Nat) : Option Written → Option Nat
  | none => some fallback
  | some w => w.count? limit

/-- Settings from an array of them in order, of which the last may be missing. -/
def ofItems? (items : List Written) : Option Settings :=
  if 2 < items.length then none
  else do
    return ⟨← setting? default.gcThreshold items[0]?, ← setting? default.maxDisplayDepth items[1]?⟩

/-- Settings from the entries of an object; other names and repetitions are refused. -/
def ofEntries? (entries : List (Option String × Written)) : Option Settings := do
  let known (key : Option String) : Bool :=
    key == some "gc_threshold" || key == some "max_display_depth"
  if entries.any fun entry => !known entry.1 then none
  let threshold ← Written.valueAt? "gc_threshold" entries
  let depth ← Written.valueAt? "max_display_depth" entries
  return ⟨← setting? default.gcThreshold threshold, ← setting? default.maxDisplayDepth depth⟩

def ofText (text : String) : Option Settings :=
  match Written.ofText text with
  | some (.array items) => ofItems? items
  | some (.object entries) => ofEntries? entries
  | _ => none

/-! ## From variables -/

def thresholdVariable : String := "ANYSCRIPT_GC_THRESHOLD"

def depthVariable : String := "ANYSCRIPT_MAX_DISPLAY_DEPTH"

/-- A setting from a variable, or its default if the variable is not set. Blanks around the number
are passed over. -/
def readSetting (lookup : String → Option String) (name : String) (fallback : Nat) :
    Except Error Nat :=
  match lookup name with
  | none => .ok fallback
  | some text =>
    match Numeral.size? (Text.trim text.toList) with
    | some n => .ok n
    | none =>
      .error (.configuration (name ++ " must be a non-negative integer, got " ++ Text.quote text))

def ofVariables (lookup : String → Option String) : Except Error Settings := do
  let threshold ← readSetting lookup thresholdVariable default.gcThreshold
  let depth ← readSetting lookup depthVariable default.maxDisplayDepth
  return ⟨threshold, depth⟩

end Settings

namespace Heap

def setThreshold (h : Heap) (threshold : Nat) : Heap :=
  { h with collector := { h.collector with threshold := threshold } }

def configure (h : Heap) (settings : Settings) : Heap :=
  { h.setThreshold settings.gcThreshold with displayDepth := settings.maxDisplayDepth }

end Heap

end ScriptCore
