import StoryBuild.Shell.Scene
import StoryBuild.Text.Digit

namespace StoryBuild.Shell

/-- The bytes of a character. -/
def charBytes (c : Char) : List UInt8 :=
  (String.singleton c).toUTF8.toList

/-- The byte of an escape of one letter. -/
def letterByte? : Char → Option UInt8
  | 'a' => some 7
  | 'b' => some 8
  | 'f' => some 12
  | 'n' => some 10
  | 'r' => some 13
  | 't' => some 9
  | 'v' => some 11
  | '\\' => some 92
  | _ => none

/-- The octal digits in front, three at most. -/
def octalDigits (cs : List Char) : List Char :=
  (cs.take 3).takeWhile fun c => '0' ≤ c ∧ c ≤ '7'

/-- The byte of octal digits. -/
def octalByte (digits : List Char) : UInt8 :=
  (digits.foldl (fun (n : Nat) c => 8 * n + (c.toNat - 48)) 0).toUInt8

/-- Replaces escapes in arguments; an escaped `c` ends all output, which the answer says. The steps
allowed are at least the characters. -/
def unescape : Nat → List Char → List UInt8 × Bool
  | 0, _ => ([], false)
  | _, [] => ([], false)
  | _, '\\' :: 'c' :: _ => ([], true)
  | n + 1, '\\' :: '0' :: cs =>
    let digits := octalDigits cs
    let (rest, stop) := unescape n (cs.drop digits.length)
    (octalByte digits :: rest, stop)
  | n + 1, '\\' :: c :: cs =>
    let (rest, stop) := unescape n cs
    match letterByte? c with
    | some b => (b :: rest, stop)
    | none => (92 :: charBytes c ++ rest, stop)
  | n + 1, c :: cs =>
    let (rest, stop) := unescape n cs
    (charBytes c ++ rest, stop)

/-- Prints arguments with blanks between them and a newline after them. -/
def echo (escapes : Bool) (args : List String) (wires : Wires) : Act Nat := do
  let (newline, args) := match args with
    | "-n" :: rest => (false, rest)
    | rest => (true, rest)
  let text := " ".intercalate args
  let (bytes, stopped) :=
    if escapes then unescape (text.length + 1) text.toList else (text.toUTF8.toList, false)
  say wires (if newline ∧ !stopped then bytes ++ [10] else bytes)
  pure 0

/-- The flags, width and precision of a field. -/
structure FieldForm where
  left : Bool := false
  zero : Bool := false
  plus : Bool := false
  width : Nat := 0
  precision : Option Nat := none

/-- Fills a field up to its width. -/
def FieldForm.pad (f : FieldForm) (numeric : Bool) (text : String) : String :=
  let missing := f.width - text.length
  if f.left then text ++ String.ofList (List.replicate missing ' ')
  else if f.zero ∧ numeric then
    match text.toList with
    | '-' :: digits => String.ofList ('-' :: List.replicate missing '0' ++ digits)
    | digits => String.ofList (List.replicate missing '0' ++ digits)
  else String.ofList (List.replicate missing ' ') ++ text

/-- Reads the form of a field. -/
def readForm (cs : List Char) : FieldForm × List Char :=
  let flags := cs.takeWhile fun c => c ∈ ['-', '0', '+', ' ', '#']
  let cs := cs.drop flags.length
  let width := cs.takeWhile Char.isDigit
  let cs := cs.drop width.length
  let (precision, cs) := match cs with
    | '.' :: rest =>
      (some ((readDecimal (rest.takeWhile Char.isDigit)).getD 0), rest.dropWhile Char.isDigit)
    | rest => (none, rest)
  (⟨flags.contains '-', flags.contains '0', flags.contains '+', (readDecimal width).getD 0,
    precision⟩, cs)

/-- The number that an argument means: decimal, octal, hexadecimal, or the code of a character. -/
def numberOf (arg : String) : Int :=
  let unsigned (cs : List Char) : Int :=
    match cs with
    | '0' :: 'x' :: ds =>
      ds.foldl (fun (n : Int) c =>
        16 * n + (if c.isDigit then c.toNat - 48 else c.toLower.toNat - 87 : Nat)) 0
    | '0' :: ds => ds.foldl (fun (n : Int) c => 8 * n + (c.toNat - 48 : Nat)) 0
    | ds => (ds.takeWhile Char.isDigit).foldl (fun (n : Int) c => 10 * n + (c.toNat - 48 : Nat)) 0
  match trim arg.toList with
  | '-' :: cs => -unsigned cs
  | '+' :: cs => unsigned cs
  | '\x27' :: c :: _ => c.toNat
  | '\x22' :: c :: _ => c.toNat
  | cs => unsigned cs

/-- The text of a field for one argument. -/
def fieldBytes (f : FieldForm) (kind : Char) (arg : Option String) : List UInt8 :=
  let given := arg.getD ""
  let based (base : Nat) (upper : Bool) : List UInt8 :=
    let digits := String.ofList (Nat.toDigits base (numberOf given % (Nat.pow 2 64 : Int)).toNat)
    (f.pad true (if upper then digits.toUpper else digits)).toUTF8.toList
  match kind with
  | 's' =>
    let text := match f.precision with
      | some n => String.ofList (given.toList.take n)
      | none => given
    (f.pad false text).toUTF8.toList
  | 'c' => (f.pad false (String.ofList (given.toList.take 1))).toUTF8.toList
  | 'b' => (unescape (given.length + 1) given.toList).1
  | 'x' => based 16 false
  | 'X' => based 16 true
  | 'o' => based 8 false
  | _ =>
    let n := numberOf given
    let digits := Nat.toDigits 10 n.natAbs
    let full := List.replicate (f.precision.getD 0 - digits.length) '0' ++ digits
    let sign := if n < 0 then ['-'] else if f.plus then ['+'] else []
    (f.pad true (String.ofList (sign ++ full))).toUTF8.toList

/-- Fills a format once. Returns the bytes, the arguments left, and whether an argument was used.
The steps allowed are at least the characters. -/
def fillFormat : Nat → List Char → List String → Bool → List UInt8 × List String × Bool
  | 0, _, args, used => ([], args, used)
  | _, [], args, used => ([], args, used)
  | n + 1, '%' :: '%' :: cs, args, used =>
    let (rest, args, used) := fillFormat n cs args used
    (37 :: rest, args, used)
  | n + 1, '%' :: cs, args, _ =>
    let (form, cs) := readForm cs
    match cs with
    | [] => ([], args, true)
    | kind :: cs =>
      let (rest, left, _) := fillFormat n cs (args.drop 1) true
      (fieldBytes form kind args.head? ++ rest, left, true)
  | n + 1, '\\' :: c :: cs, args, used =>
    let digits := octalDigits (c :: cs)
    if digits.isEmpty then
      let (rest, args, used) := fillFormat n cs args used
      match letterByte? c with
      | some b => (b :: rest, args, used)
      | none => (92 :: charBytes c ++ rest, args, used)
    else
      let (rest, args, used) := fillFormat n ((c :: cs).drop digits.length) args used
      (octalByte digits :: rest, args, used)
  | n + 1, c :: cs, args, used =>
    let (rest, args, used) := fillFormat n cs args used
    (charBytes c ++ rest, args, used)

/-- Fills a format again and again until no argument is left. -/
def fillAll (format : List Char) : Nat → List String → List UInt8
  | 0, _ => []
  | n + 1, args =>
    let (bytes, left, used) := fillFormat (format.length + 1) format args false
    if left.isEmpty ∨ !used then bytes else bytes ++ fillAll format n left

/-- Prints arguments in a format. -/
def printf (args : List String) (wires : Wires) : Act Nat := do
  let args := if args.head? = some "--" then args.drop 1 else args
  match args with
  | [] =>
    complain wires "printf: usage: printf format [arg ...]"
    pure 2
  | format :: args =>
    say wires (fillAll format.toList (args.length + 1) args)
    pure 0

end StoryBuild.Shell
