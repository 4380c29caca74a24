namespace StoryBuild

/-- The first place where bytes stop being UTF-8. -/
structure TextFault where
  index : Nat
  length : Option Nat
  deriving DecidableEq

/-- The message for bytes that are no text. -/
def TextFault.message (f : TextFault) : String :=
  match f.length with
  | some n => s!"invalid utf-8 sequence of {n} bytes from index {f.index}"
  | none => s!"incomplete utf-8 byte sequence from index {f.index}"

/-- How many bytes follow a first byte, and the bounds of the first of them. -/
def tailOf (b : UInt8) : Option (Nat × UInt8 × UInt8) :=
  if b < 0x80 then some (0, 0, 0)
  else if b < 0xC2 then none
  else if b < 0xE0 then some (1, 0x80, 0xBF)
  else if b = 0xE0 then some (2, 0xA0, 0xBF)
  else if b = 0xED then some (2, 0x80, 0x9F)
  else if b < 0xF0 then some (2, 0x80, 0xBF)
  else if b = 0xF0 then some (3, 0x90, 0xBF)
  else if b < 0xF4 then some (3, 0x80, 0xBF)
  else if b = 0xF4 then some (3, 0x80, 0x8F)
  else none

/-- Looks for a fault from an index on. The state counts the bytes of the current sequence that
have been read and those that are still due, with the bounds of the next one. -/
def faultFrom (start seen due : Nat) (low high : UInt8) : List UInt8 → Option TextFault
  | [] => if due = 0 then none else some ⟨start, none⟩
  | b :: bytes =>
    if due = 0 then
      match tailOf b with
      | none => some ⟨start, some 1⟩
      | some (0, _, _) => faultFrom (start + 1) 0 0 0 0 bytes
      | some (n + 1, l, h) => faultFrom start 1 (n + 1) l h bytes
    else if low ≤ b ∧ b ≤ high then
      if due = 1 then faultFrom (start + seen + 1) 0 0 0 0 bytes
      else faultFrom start (seen + 1) (due - 1) 0x80 0xBF bytes
    else some ⟨start, some seen⟩

/-- The first fault of some bytes. -/
def textFault (bytes : ByteArray) : TextFault :=
  (faultFrom 0 0 0 0 0 bytes.toList).getD ⟨0, some 1⟩

/-- The text that some bytes spell. -/
def decodeText (bytes : ByteArray) : Except TextFault String :=
  match String.fromUTF8? bytes with
  | some s => .ok s
  | none => .error (textFault bytes)

end StoryBuild
