import FieldFormula.Decimal.Layout

/-!
Tokens of formulas. A piece of text that is no token is carried along as a fault, which counts only
once the reader of expressions reaches it.
-/
namespace FieldFormula

inductive LexicalFault where
  | loneEquals
  | loneMark (c : Char)
  | openText
  | badNumber (text : String)
  | strayCharacter (c : Char)
  deriving DecidableEq

namespace LexicalFault

def message : LexicalFault → String
  | loneEquals => "Unexpected '=' (use '==' for equality)"
  | loneMark c => "Unexpected '" ++ c.toString ++ "' (use '" ++ c.toString ++ c.toString ++ "')"
  | openText => "Unterminated string literal"
  | badNumber text => "Invalid number '" ++ text ++ "'"
  | strayCharacter c => "Unexpected character '" ++ c.toString ++ "'"

end LexicalFault

inductive Token where
  | number (n : Binary64)
  | text (s : String)
  | boolean (b : Bool)
  | word (name : String)
  | plus | minus | star | slash | caret | percent | bang
  | andAnd | orOr
  | equalEqual | notEqual | less | lessEqual | greater | greaterEqual
  | comma | openParen | closeParen
  | invalid (fault : LexicalFault)
  deriving DecidableEq

namespace Token

def describe : Token → String
  | number n => "number " ++ String.ofList (NumberStyle.message.write n)
  | text s => "string \"" ++ s ++ "\""
  | boolean b => if b then "boolean true" else "boolean false"
  | word name => "identifier '" ++ name ++ "'"
  | plus => "'+'"
  | minus => "'-'"
  | star => "'*'"
  | slash => "'/'"
  | caret => "'^'"
  | percent => "'%'"
  | bang => "'!'"
  | andAnd => "'&&'"
  | orOr => "'||'"
  | equalEqual => "'=='"
  | notEqual => "'!='"
  | less => "'<'"
  | lessEqual => "'<='"
  | greater => "'>'"
  | greaterEqual => "'>='"
  | comma => "','"
  | openParen => "'('"
  | closeParen => "')'"
  | invalid fault => fault.message

end Token
end FieldFormula
