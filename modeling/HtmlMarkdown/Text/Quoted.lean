import HtmlMarkdown.Text.Invisible

/-!
# Quoted characters

A character as a message shows it: between single quotes, with a backslash form for what would be
invisible or would end the quotes. Other characters with no picture of their own are written by
number.
-/

namespace HtmlMarkdown.Text

def hexDigits (c : Char) : String := String.ofList (Nat.toDigits 16 c.toNat)

def shownChar (c : Char) : String :=
  if c = '\x00' then "\\0"
  else if c = '\t' then "\\t"
  else if c = '\n' then "\\n"
  else if c = '\r' then "\\r"
  else if c = '\'' then "\\'"
  else if c = '\\' then "\\\\"
  else if isInvisible c then "\\u\x7b" ++ hexDigits c ++ "\x7d"
  else c.toString

def quotedChar (c : Char) : String := "'" ++ shownChar c ++ "'"

end HtmlMarkdown.Text
