import StoryBuild.Shell.Tools.Basic
import StoryBuild.Text.Blank

namespace StoryBuild.Shell

/-- The lines of some bytes, each with its newline. -/
def byteLines (bytes : List UInt8) : List (List UInt8) :=
  let (lines, last) := bytes.foldl (fun (state : List (List UInt8) × List UInt8) b =>
    if b = 10 then ((10 :: state.2).reverse :: state.1, []) else (state.1, b :: state.2)) ([], [])
  (if last.isEmpty then lines else last.reverse :: lines).reverse

/-- How much of its input a program is to take: lines or bytes, and how many. -/
def readAmount : List String → Bool × String × List String
  | "-n" :: n :: rest => (true, n, rest)
  | "-c" :: n :: rest => (false, n, rest)
  | arg :: rest =>
    if arg.startsWith "-n" then (true, String.ofList (arg.toList.drop 2), rest)
    else if arg.startsWith "-c" then (false, String.ofList (arg.toList.drop 2), rest)
    else if arg.startsWith "-" ∧ arg.length > 1 then
      (true, String.ofList (arg.toList.drop 1), rest)
    else (true, "10", arg :: rest)
  | [] => (true, "10", [])

/-- Keeps the start of the input. -/
def takeFirst (args : List String) (wires : Wires) : Act Nat := do
  let (byLines, amount, files) := readAmount args
  let fromEnd := amount.startsWith "-"
  let count := (readDecimal (amount.toList.dropWhile (· = '-'))).getD 0
  let keep {α : Type} (items : List α) : List α :=
    items.take (if fromEnd then items.length - count else count)
  if files = ["/dev/zero"] then
    say wires (List.replicate count 0)
    pure 0
  else
    let (bytes, complete) ← readArgs "head" wires files
    say wires (if byLines then (keep (byteLines bytes)).flatten else keep bytes)
    pure (if complete then 0 else 1)

/-- Keeps the end of the input. -/
def takeLast (args : List String) (wires : Wires) : Act Nat := do
  let (byLines, amount, files) := readAmount args
  let (bytes, complete) ← readArgs "tail" wires files
  let lines := byteLines bytes
  let piece := match amount.toList with
    | '+' :: digits =>
      let skipped := (readDecimal digits).getD 1 - 1
      if byLines then (lines.drop skipped).flatten else bytes.drop skipped
    | digits =>
      let count := (readDecimal digits).getD 0
      if byLines then (lines.drop (lines.length - count)).flatten
      else bytes.drop (bytes.length - count)
  say wires piece
  pure (if complete then 0 else 1)

/-- Counts lines, words and bytes. -/
def countInput (args : List String) (wires : Wires) : Act Nat := do
  let (options, files) := splitOptions args
  let (bytes, complete) ← readArgs "wc" wires files
  let lines := bytes.countP (· = 10)
  let words := ((textOfBytes bytes).toList.splitBy fun a b => isBlank a == isBlank b).countP
    fun run => !(run.head?.any isBlank)
  let shown := match options with
    | ["-l"] => toString lines
    | ["-c"] => toString bytes.length
    | ["-w"] => toString words
    | ["-m"] => toString (textOfBytes bytes).length
    | _ => s!"{lines} {words} {bytes.length}"
  sayText wires (String.intercalate " " (shown :: files) ++ "\n")
  pure (if complete then 0 else 1)

/-- The bytes that a set of characters names. The steps allowed are at least its characters. -/
def setBytes : Nat → List Char → List UInt8
  | 0, _ => []
  | _, [] => []
  | n + 1, '\\' :: c :: cs =>
    let digits := octalDigits (c :: cs)
    if digits.isEmpty then (letterByte? c).getD c.toNat.toUInt8 :: setBytes n cs
    else octalByte digits :: setBytes n ((c :: cs).drop digits.length)
  | n + 1, '[' :: ':' :: cs =>
    let name := String.ofList (cs.takeWhile (· ≠ ':'))
    let rest := (cs.dropWhile (· ≠ ':')).drop 2
    let members : Char → Bool := match name with
      | "upper" => Char.isUpper
      | "lower" => Char.isLower
      | "digit" => Char.isDigit
      | "alpha" => Char.isAlpha
      | "alnum" => Char.isAlphanum
      | "space" => Char.isWhitespace
      | _ => fun _ => false
    ((List.range 128).filter fun k => members (Char.ofNat k)).map Nat.toUInt8 ++ setBytes n rest
  | n + 1, a :: '-' :: b :: cs =>
    ((List.range 256).filter fun k => a.toNat ≤ k ∧ k ≤ b.toNat).map Nat.toUInt8 ++ setBytes n cs
  | n + 1, c :: cs => charBytes c ++ setBytes n cs

/-- The bytes of a set. -/
def setOf (s : String) : List UInt8 :=
  setBytes (s.length + 1) s.toList

/-- Replaces or drops bytes. -/
def translate (args : List String) (wires : Wires) : Act Nat := do
  let (options, others) := splitOptions args
  let bytes ← takeInput wires
  match options, others with
  | ["-d"], [gone] =>
    let set := setOf gone
    say wires (bytes.filter fun b => !set.contains b)
    pure 0
  | [], [source, target] =>
    let froms := setOf source
    let tos := setOf target
    say wires (bytes.map fun b =>
      match froms.idxOf? b with
      | some i => (tos[i]? <|> tos.getLast?).getD b
      | none => b)
    pure 0
  | _, _ =>
    complain wires "tr: missing operand"
    pure 1

/-- Lines without their newlines. -/
def textLines (bytes : List UInt8) : List String :=
  (byteLines bytes).map fun line => textOfBytes (line.filter (· ≠ 10))

/-- Prints lines. -/
def sayLines (wires : Wires) (lines : List String) : Act Unit :=
  sayText wires (String.join (lines.map (· ++ "\n")))

/-- Keeps one of equal neighbours. -/
def withoutRepeats : List String → List String
  | a :: b :: rest => if a = b then withoutRepeats (b :: rest) else a :: withoutRepeats (b :: rest)
  | rest => rest

/-- Orders lines. -/
def sortLines (args : List String) (wires : Wires) : Act Nat := do
  let (options, files) := splitOptions args
  let (bytes, complete) ← readArgs "sort" wires files
  let byNumber := hasLetter options 'n'
  let sorted := (textLines bytes).mergeSort fun a b =>
    if byNumber ∧ numberOf a ≠ numberOf b then numberOf a ≤ numberOf b else a ≤ b
  let sorted := if hasLetter options 'r' then sorted.reverse else sorted
  sayLines wires (if hasLetter options 'u' then withoutRepeats sorted else sorted)
  pure (if complete then 0 else 2)

/-- Drops lines that repeat the line before. -/
def dropRepeats (args : List String) (wires : Wires) : Act Nat := do
  let (bytes, complete) ← readArgs "uniq" wires (splitOptions args).2
  sayLines wires (withoutRepeats (textLines bytes))
  pure (if complete then 0 else 1)

/-- Prints numbers in steps. -/
def countUp (args : List String) (wires : Wires) : Act Nat := do
  let (first, step, last) := match args.map numberOf with
    | [last] => (1, 1, last)
    | [first, last] => (first, 1, last)
    | [first, step, last] => (first, step, last)
    | _ => (1, 1, 0)
  let count := if step = 0 then 0 else ((last - first) / step + 1).toNat
  sayLines wires ((List.range count).map fun (i : Nat) => toString (first + step * (i : Int)))
  pure 0

/-- Prints the input and writes it to files. -/
def copyInput (args : List String) (wires : Wires) : Act Nat := do
  let (options, others) := splitOptions args
  let bytes ← takeInput wires
  say wires bytes
  forArgs others fun arg =>
    changeDisk wires s!"tee: {arg}" fun disk =>
      let old := if hasLetter options 'a' then (disk.readBytes (pathArg arg)).toOption else none
      disk.create (pathArg arg) (old.getD .empty ++ ⟨bytes.toArray⟩)

/-- A line again and again, as often as a short pipe can take. -/
def repeatLine (args : List String) (wires : Wires) : Act Nat := do
  let line := (if args.isEmpty then "y" else " ".intercalate args) ++ "\n"
  sayText wires (String.join (List.replicate 4096 line))
  pure 0

/-- The places that a list such as `1,3-5` names, counted from one. -/
def placesOf (list : String) (count : Nat) : List Nat :=
  (cutAt ',' list.toList).flatMap fun part =>
    match cutAt '-' part with
    | [one] => (readDecimal one).toList
    | [first, last] =>
      let first := (readDecimal first).getD 1
      let last := min ((readDecimal last).getD count) count
      (List.range (last + 1)).filter (first ≤ ·)
    | _ => []

/-- Keeps the items at some places, in their order. -/
def keepPlaces {α : Type} (list : String) (items : List α) : List α :=
  let places := placesOf list items.length
  ((items.zipIdx 1).filter fun e => places.contains e.2).map Prod.fst

/-- An option's value, which may stand in the same argument. -/
def optionValue (letter : String) : List String → Option (String × List String)
  | [] => none
  | arg :: rest =>
    if arg = letter then rest.head?.map fun v => (v, rest.drop 1)
    else if arg.startsWith letter then some (String.ofList (arg.toList.drop letter.length), rest)
    else (optionValue letter rest).map fun r => (r.1, arg :: r.2)

/-- Keeps characters or fields of every line. -/
def cutLines (args : List String) (wires : Wires) : Act Nat := do
  let (mark, args) := match optionValue "-d" args with
    | some (d, rest) => (d.toList.headD '\t', rest)
    | none => ('\t', args)
  let (keep, files) : (String → String) × List String :=
    match optionValue "-f" args, optionValue "-c" args, optionValue "-b" args with
    | some (list, rest), _, _ =>
      (fun line =>
        let pieces := cutAt mark line.toList
        if pieces.length ≤ 1 then line else String.ofList (gather mark (keepPlaces list pieces)),
        rest)
    | _, some (list, rest), _ => (fun line => String.ofList (keepPlaces list line.toList), rest)
    | _, _, some (list, rest) => (fun line => String.ofList (keepPlaces list line.toList), rest)
    | _, _, _ => (id, args)
  let (bytes, complete) ← readArgs "cut" wires files
  sayLines wires ((textLines bytes).map keep)
  pure (if complete then 0 else 1)

/-- Turns every line around. -/
def turnLines (args : List String) (wires : Wires) : Act Nat := do
  let (bytes, complete) ← readArgs "rev" wires args
  sayLines wires ((textLines bytes).map fun line => String.ofList line.toList.reverse)
  pure (if complete then 0 else 1)

end StoryBuild.Shell
