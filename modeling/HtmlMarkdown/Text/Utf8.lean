/-!
# UTF-8

Decoding of an octet list, one octet at a time. Each first octet fixes how many octets follow and
between which bounds the second one lies; the later ones lie between `0x80` and `0xBF`. A fault is
reported at the first octet of the sequence it stands in: `invalid` with the number of octets that
began well, `incomplete` where the list ends inside a sequence.
-/

namespace HtmlMarkdown.Text.Utf8

inductive Fault where
  | invalid (length index : Nat)
  | incomplete (index : Nat)
  deriving DecidableEq, Repr

namespace Fault

def message : Fault → String
  | invalid length index =>
    "invalid utf-8 sequence of " ++ toString length ++ " bytes from index " ++ toString index
  | incomplete index => "incomplete utf-8 byte sequence from index " ++ toString index

end Fault

/-- A sequence begun but not ended: the octets read and owed, the bounds of the next one, and the
bits collected so far. -/
structure Begun where
  read : Nat
  owed : Nat
  low : Nat
  high : Nat
  bits : Nat
  deriving DecidableEq, Repr

def begin? (b : Nat) : Option Begun :=
  if b ≤ 0x7F then some ⟨1, 0, 0x80, 0xBF, b⟩
  else if 0xC2 ≤ b ∧ b ≤ 0xDF then some ⟨1, 1, 0x80, 0xBF, b - 0xC0⟩
  else if b = 0xE0 then some ⟨1, 2, 0xA0, 0xBF, 0⟩
  else if b = 0xED then some ⟨1, 2, 0x80, 0x9F, 0xD⟩
  else if 0xE1 ≤ b ∧ b ≤ 0xEF then some ⟨1, 2, 0x80, 0xBF, b - 0xE0⟩
  else if b = 0xF0 then some ⟨1, 3, 0x90, 0xBF, 0⟩
  else if 0xF1 ≤ b ∧ b ≤ 0xF3 then some ⟨1, 3, 0x80, 0xBF, b - 0xF0⟩
  else if b = 0xF4 then some ⟨1, 3, 0x80, 0x8F, 4⟩
  else none

namespace Begun

def next? (s : Begun) (b : Nat) : Option Begun :=
  if s.low ≤ b ∧ b ≤ s.high then
    some ⟨s.read + 1, s.owed - 1, 0x80, 0xBF, s.bits * 64 + (b - 0x80)⟩
  else none

end Begun

def decodeFrom (index : Nat) : Option Begun → List UInt8 → Except Fault (List Char)
  | none, [] => .ok []
  | some s, [] => .error (.incomplete (index - s.read))
  | open?, b :: bs =>
    let after := match open? with
      | none => begin? b.toNat
      | some s => s.next? b.toNat
    match after with
    | none => .error (match open? with
      | none => .invalid 1 index
      | some s => .invalid s.read (index - s.read))
    | some s =>
      if s.owed = 0 then (decodeFrom (index + 1) none bs).map (Char.ofNat s.bits :: ·)
      else decodeFrom (index + 1) (some s) bs

def decode (bytes : List UInt8) : Except Fault String :=
  (decodeFrom 0 none bytes).map String.ofList

end HtmlMarkdown.Text.Utf8
