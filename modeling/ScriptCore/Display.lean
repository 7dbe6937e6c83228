import ScriptCore.Heap.Basic
import ScriptCore.Number.Decimal
import ScriptCore.Text.Quoted

/-!
# Writing values out

The text of a value. Strings are written bare at the top and quoted inside arrays and objects.
Functions are written as a heading. A container inside itself is written `[Circular]`, and one that
is enclosed by as many containers as the heap's display depth is written `[Array]` or `[Object]`.
-/

namespace ScriptCore

namespace Callable

def bodyText (f : Callable) : String :=
  match f.kind with
  | .native | .closure => "\x7b [native code] \x7d"
  | .interpreted | .compiled => "\x7b ... \x7d"

def text (f : Callable) : String :=
  if f.isConstructor then "class " ++ f.name ++ " \x7b ... \x7d"
  else "function " ++ f.name ++ "(" ++ ", ".intercalate f.params ++ ") " ++ f.bodyText

end Callable

namespace Display

def array (items : List String) : String := "[" ++ ", ".intercalate items ++ "]"

def object (entries : List (String × String)) : String :=
  if entries.isEmpty then "\x7b\x7d"
  else
    "\x7b" ++ ",".intercalate (entries.map fun (key, text) => " " ++ key ++ ": " ++ text) ++ " \x7d"

def cutMark : ObjectKind → String
  | .array => "[Array]"
  | _ => "[Object]"

end Display

namespace Heap

/-- The text of a value inside the containers `enclosing`, with room for so many more. -/
def render (h : Heap) (room : Nat) (enclosing : List NodeId) (nested : Bool) (v : Value) : String :=
  match v with
  | .undefined => "undefined"
  | .null => "null"
  | .boolean b => if b then "true" else "false"
  | .integer n => toString n.toInt
  | .double d => d.text
  | .object id =>
    match h.object? id with
    | none => ""
    | some o =>
      match o.exotic with
      | .string text => if nested then Text.quote text else text
      | .function f => f.text
      | .array elements =>
        if enclosing.contains id then "[Circular]"
        else
          match room with
          | 0 => Display.cutMark .array
          | room + 1 =>
            Display.array (elements.toList.map fun e => h.render room (id :: enclosing) true e)
      | .ordinary =>
        if enclosing.contains id then "[Circular]"
        else
          match room with
          | 0 => Display.cutMark .ordinary
          | room + 1 =>
            Display.object (o.fields.entries.map fun (key, e) =>
              (key, h.render room (id :: enclosing) true e))

def display (h : Heap) (v : Value) : String := h.render h.displayDepth [] false v

/-- The text of a value as it stands inside a container: strings are quoted. -/
def displayNested (h : Heap) (v : Value) : String := h.render h.displayDepth [] true v

/-- A value as text: the content of a string, and what is displayed of anything else. -/
def toText (h : Heap) (v : Value) : String := (h.text? v).getD (h.display v)

end Heap

end ScriptCore
