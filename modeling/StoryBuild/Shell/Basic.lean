namespace StoryBuild.Shell

/-- Where a redirection leads. -/
inductive RedirectKind where
  | read
  | write
  | append
  | copy
  /-- The text itself is read. -/
  | inlay
  deriving DecidableEq, Inhabited

mutual

/-- One piece of a word. What stands in quotes is not cut at blanks. -/
inductive Piece where
  | text (quoted : Bool) (s : String)
  | param (quoted : Bool) (name : String) (use : ParamUse)
  /-- What commands print. -/
  | output (quoted : Bool) (body : List Command)
  /-- The value of a whole-number expression. -/
  | sum (quoted : Bool) (expression : List Piece)

/-- What is made of the value of a parameter. -/
inductive ParamUse where
  | plain
  | length
  /-- Another word for a parameter that is not set, or is empty. -/
  | orElse (evenEmpty : Bool) (word : List Piece)
  /-- The same, and the parameter is set to the word. -/
  | setTo (evenEmpty : Bool) (word : List Piece)
  /-- A complaint about a parameter that is not set, or is empty. -/
  | demand (evenEmpty : Bool) (complaint : List Piece)
  /-- Another word for a parameter that is set, and is not empty. -/
  | instead (evenEmpty : Bool) (word : List Piece)
  /-- The value without the shortest or longest end that a pattern matches. -/
  | cutEnd (longest : Bool) (pattern : List Piece)
  /-- The value without the shortest or longest start that a pattern matches. -/
  | cutStart (longest : Bool) (pattern : List Piece)

/-- A stream of a command led elsewhere. -/
inductive Redirect where
  | to (stream : Nat) (kind : RedirectKind) (target : List Piece)

/-- A command. -/
inductive Command where
  | simple (settings : List (String × List Piece)) (words : List (List Piece))
      (redirects : List Redirect)
  | pipe (negated : Bool) (parts : List Command)
  /-- The second command runs if the first one succeeds, or if it fails. -/
  | chain (onSuccess : Bool) (first second : Command)
  | group (alone : Bool) (body : List Command) (redirects : List Redirect)
  | cond (branches : List (List Command × List Command)) (otherwise : List Command)
      (redirects : List Redirect)
  | loop (whileTrue : Bool) (test body : List Command) (redirects : List Redirect)
  | each (name : String) (words : Option (List (List Piece))) (body : List Command)
      (redirects : List Redirect)
  | choose (word : List Piece) (branches : List (List (List Piece) × List Command))
      (redirects : List Redirect)
  | define (name : String) (body : Command)

end

instance : Inhabited Piece := ⟨.text false ""⟩

instance : Inhabited Command := ⟨.simple [] [] []⟩

/-- A word. -/
abbrev Word := List Piece

end StoryBuild.Shell
