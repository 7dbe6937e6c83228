import ScriptCore.Session.State

/-!
# Steps about registers and the table

What the host keeps from one step to the next, and a table from values to values under strict keys.
-/

namespace ScriptCore

namespace StepM

/-- Put a value into a register, which takes over the caller's hold on it. -/
def store (name : String) (v : Value) : StepM Unit := do
  let s ← getThe Session
  set { s with registers := s.registers.insert name v }
  (s.registers.get? name).forM fun old => HeapM.letGo old

def dropRegister (name : String) : StepM Bool := do
  let s ← getThe Session
  match s.registers.get? name with
  | none => return false
  | some v =>
    set { s with registers := s.registers.erase name }
    HeapM.letGo v
    return true

end StepM

namespace Session

def tableValue? (s : Session) (key : Value) : Option Value :=
  (s.table.find? fun entry => entry.1.sameKey key).map Prod.snd

end Session

namespace StoreRequest

def perform : StoreRequest → StepM Outcome
  | .keep v => return .value (← StepM.make v)
  | .dropRegister name => do .fact "dropped" (.boolean (← .dropRegister name))
  | .tableInsert key v => do
    let key ← .take key
    let v ← .take v
    let s ← getThe Session
    let old := s.tableValue? key
    let table :=
      if old.isSome then
        s.table.map fun entry => if entry.1.sameKey key then (entry.1, v) else entry
      else s.table ++ [(key, v)]
    set { s with table := table }
    HeapM.hold v
    match old with
    | some old => .keep old
    | none => HeapM.hold key
    return .facts [
      ("old", (← StepM.heap).snapshot? old),
      ("len", .ofNat table.length)]
  | .tableGet key => do
    let key ← .take key
    let s ← getThe Session
    .fact "v" (s.heap.snapshot? (s.tableValue? key))
  | .tableRemove key => do
    let key ← .take key
    let s ← getThe Session
    let removed := s.table.find? fun entry => entry.1.sameKey key
    let table := s.table.filter fun entry => !entry.1.sameKey key
    set { s with table := table }
    removed.forM fun (key, v) => do
      HeapM.letGo key
      .keep v
    return .facts [
      ("old", (← StepM.heap).snapshot? (removed.map Prod.snd)),
      ("len", .ofNat table.length)]

end StoreRequest

end ScriptCore
