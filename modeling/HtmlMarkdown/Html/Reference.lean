/-!
# Character references

A reference in text or in an attribute value is an ampersand, a name or a number, and a semicolon.
Numbers that stand for no character give the replacement character; numbers of C1 controls give the
characters that Windows-1252 has in their places. Any other ampersand is text.
-/

namespace HtmlMarkdown.Html

def namedCharacters : List (String × Char) :=
  [("amp", '&'), ("lt", '<'), ("gt", '>'), ("quot", '"'), ("nbsp", '\u00A0'), ("copy", '\u00A9')]

def windowsCharacters : List (Nat × Nat) :=
  [(0x80, 0x20AC), (0x82, 0x201A), (0x83, 0x0192), (0x84, 0x201E), (0x85, 0x2026), (0x86, 0x2020),
    (0x87, 0x2021), (0x88, 0x02C6), (0x89, 0x2030), (0x8A, 0x0160), (0x8B, 0x2039), (0x8C, 0x0152),
    (0x8E, 0x017D), (0x91, 0x2018), (0x92, 0x2019), (0x93, 0x201C), (0x94, 0x201D), (0x95, 0x2022),
    (0x96, 0x2013), (0x97, 0x2014), (0x98, 0x02DC), (0x99, 0x2122), (0x9A, 0x0161), (0x9B, 0x203A),
    (0x9C, 0x0153), (0x9E, 0x017E), (0x9F, 0x0178)]

def numberedCharacter (n : Nat) : Char :=
  if n = 0 ∨ 0x10FFFF < n ∨ (0xD800 ≤ n ∧ n ≤ 0xDFFF) then '\uFFFD'
  else Char.ofNat ((windowsCharacters.lookup n).getD n)

def digitValue? (base : Nat) (c : Char) : Option Nat :=
  let value :=
    if c.isDigit then some (c.toNat - '0'.toNat)
    else if 'a' ≤ c ∧ c ≤ 'f' then some (c.toNat - 'a'.toNat + 10)
    else if 'A' ≤ c ∧ c ≤ 'F' then some (c.toNat - 'A'.toNat + 10)
    else none
  value.filter (· < base)

def numberFrom? (base n : Nat) : List Char → Option Nat
  | [] => some n
  | c :: cs => (digitValue? base c).bind fun digit => numberFrom? base (base * n + digit) cs

def number? (base : Nat) (digits : List Char) : Option Nat :=
  if digits = [] then none else numberFrom? base 0 digits

/-- The character that the text between an ampersand and a semicolon stands for. -/
def character? : List Char → Option Char
  | '#' :: 'x' :: digits => (number? 16 digits).map numberedCharacter
  | '#' :: 'X' :: digits => (number? 16 digits).map numberedCharacter
  | '#' :: digits => (number? 10 digits).map numberedCharacter
  | name => namedCharacters.lookup (String.ofList name)

def isReferenceChar (c : Char) : Bool := c.isAlphanum || c == '#'

/-- The reference that goes on with this text: its character, and its length without the
ampersand. -/
def reference? (cs : List Char) : Option (Char × Nat) :=
  let body := cs.takeWhile isReferenceChar
  if (cs.drop body.length).head? = some ';' then
    (character? body).map fun c => (c, body.length + 1)
  else none

/-- Decodes a text; its first `skip` characters belong to a reference already read. -/
def decodeFrom (skip : Nat) : List Char → List Char
  | [] => []
  | c :: cs =>
    match skip with
    | n + 1 => decodeFrom n cs
    | 0 =>
      match if c = '&' then reference? cs else none with
      | some (decoded, length) => decoded :: decodeFrom length cs
      | none => c :: decodeFrom 0 cs

def decodeReferences (cs : List Char) : List Char := decodeFrom 0 cs

end HtmlMarkdown.Html
