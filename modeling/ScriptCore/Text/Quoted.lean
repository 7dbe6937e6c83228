import ScriptCore.Text.Printable

/-!
# Quoted text

A text between double quotes, with quotes, backslashes and the common controls escaped by name and
every other hidden character by its number.
-/

namespace ScriptCore

namespace Text

def namedEscape? : Char → Option Char
  | '"' => some '"'
  | '\\' => some '\\'
  | '\n' => some 'n'
  | '\r' => some 'r'
  | '\t' => some 't'
  | '\x00' => some '0'
  | _ => none

def quoteChar (c : Char) : List Char :=
  match namedEscape? c with
  | some name => ['\\', name]
  | none =>
    if isHidden c then ['\\', 'u', '\x7b'] ++ Nat.toDigits 16 c.toNat ++ ['\x7d'] else [c]

def quote (text : String) : String :=
  String.ofList ('"' :: text.toList.flatMap quoteChar ++ ['"'])

end Text

end ScriptCore
