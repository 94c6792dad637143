import MathExpr.Text.Blank
import MathExpr.Text.Digit
/-!
# Reading the command line

A command line has one expression and any switches around it. Long switches may be shortened as long as
they stay unambiguous, and short ones that take no argument may be written in one word. After a word of
two dashes nothing is a switch any more.
-/

namespace MathExpr.CommandLine

/-- A switch. -/
inductive Switch where
  | help
  | simplify
  | tex
  | outline
  | define
  | verbose
  deriving DecidableEq, Repr

namespace Switch

/-- The spellings of the switches. -/
def spellings : List (String × Switch) := [
  ("-h", help), ("--help", help), ("-s", simplify), ("--simplify", simplify), ("--tex", tex),
  ("--ast", outline), ("-D", define), ("--define", define), ("-v", verbose), ("--verbose", verbose)]

/-- Whether a switch takes an argument. -/
def takesArgument : Switch → Bool
  | simplify | define => true
  | _ => false

/-- The switch with a spelling. -/
def ofChars? (cs : List Char) : Option Switch := spellings.lookup (String.ofList cs)

/-- The switches that a spelling may be short for. -/
def startingWith (cs : List Char) : List Switch :=
  spellings.filterMap fun e => if cs.isPrefixOf e.1.toList then some e.2 else none

end Switch

/-- What is asked for. -/
structure Request where
  expression : String
  rules : Option String
  tex : Bool
  outline : Bool
  definitions : List (String × String)
  deriving DecidableEq, Repr

/-- Why there is no request: help is asked for, or the command line cannot be read. -/
inductive Refusal where
  | help
  | misuse
  deriving DecidableEq, Repr

/-! ## Words -/

/-- What follows the name of a switch in the same word, and whether an equals sign stands between. -/
structure Attached where
  marked : Bool
  text : List Char
  deriving DecidableEq, Repr

/-- A word of the command line. -/
inductive Word where
  | value
  | switch (s : Switch) (isShort : Bool) (attached : Option Attached)
  | unknown
  | ambiguous
  deriving DecidableEq, Repr

/-- What stands before the first equals sign, and what stands behind it if there is one. -/
def splitEquals : List Char → List Char × Option (List Char)
  | [] => ([], none)
  | '=' :: rest => ([], some rest)
  | c :: rest => ((c :: (splitEquals rest).1), (splitEquals rest).2)

/-- Whether what follows a dash makes it a negative number, with digits of any script. -/
def isNegativeNumber (cs : List Char) : Bool :=
  let cs := if cs.getLast? = some '\n' then cs.dropLast else cs
  let whole := cs.takeWhile Text.isDecimal
  match cs.drop whole.length with
  | [] => !whole.isEmpty
  | '.' :: rest => !rest.isEmpty && rest.all Text.isDecimal
  | _ => false

/-- A word that starts with a dash but names no switch: a negative number and what contains a blank are
values. -/
def unmatched (cs : List Char) : Word :=
  if isNegativeNumber (cs.drop 1) || cs.contains ' ' then .value else .unknown

/-- What a word is. -/
def classify (word : String) : Word :=
  match word.toList with
  | '-' :: c :: rest =>
    let cs := '-' :: c :: rest
    let isShort := c ≠ '-'
    let (head, tail) := splitEquals cs
    match Switch.ofChars? cs, tail, Switch.ofChars? head with
    | some s, _, _ => .switch s isShort none
    | none, some text, some s => .switch s isShort (some ⟨true, text⟩)
    | none, tail, _ =>
      if isShort then
        match Switch.ofChars? ['-', c] with
        | some s => .switch s true (some ⟨false, rest⟩)
        | none => unmatched cs
      else
        match Switch.startingWith head with
        | [] => unmatched cs
        | [s] => .switch s false (tail.map fun text => ⟨true, text⟩)
        | _ => .ambiguous
  | _ => .value

/-! ## Switches in one word -/

/-- The switches of a word. The last one may still need an argument. -/
structure Cluster where
  switches : List (Switch × Option String) := []
  awaiting : Option Switch := none
  surplus : Bool := false

namespace Cluster

/-- The cluster with one more switch in front that has no argument. -/
def after (s : Switch) (c : Cluster) : Cluster := { c with switches := (s, none) :: c.switches }

/-- A switch without anything attached. -/
def single (s : Switch) : Cluster :=
  if s.takesArgument then { awaiting := some s } else { switches := [(s, none)] }

/-- The short switches of a word, of which the first is `s` and the others are attached. -/
def ofShort (s : Switch) (marked : Bool) (text : List Char) : Except Refusal Cluster :=
  if s.takesArgument then .ok { switches := [(s, some (String.ofList text))] }
  else if marked then .error .misuse
  else
    match text with
    | [] | '-' :: _ => .error .misuse
    | c :: rest =>
      match Switch.ofChars? ['-', c] with
      | none => .ok { switches := [(s, none)], surplus := true }
      | some t =>
        match rest with
        | [] => .ok (after s (single t))
        | '=' :: rest => (ofShort t true rest).map (after s)
        | d :: rest => (ofShort t false (d :: rest)).map (after s)
termination_by text.length

/-- The switches of a word. -/
def ofSwitch (s : Switch) (isShort : Bool) : Option Attached → Except Refusal Cluster
  | none => .ok (single s)
  | some a =>
    if isShort then ofShort s a.marked a.text
    else if s.takesArgument then .ok { switches := [(s, some (String.ofList a.text))] }
    else .error .misuse

end Cluster

/-! ## Words in a row -/

/-- What has been read so far. `surplus` says that there is a word too much. -/
structure Progress where
  expression : Option String := none
  rules : Option String := none
  tex : Bool := false
  outline : Bool := false
  definitions : List (String × String) := []
  surplus : Bool := false

namespace Progress

/-- A definition, which is a name and an expression with an equals sign between. -/
def definition? (text : String) : Option (String × String) :=
  match splitEquals text.toList with
  | (_, none) => none
  | (name, some source) =>
    let name := Text.strip (String.ofList name)
    if name.isEmpty then none else some (name, String.ofList source)

/-- Carries out a switch. -/
def apply (p : Progress) : Switch × Option String → Except Refusal Progress
  | (.help, _) => .error .help
  | (.simplify, text) => .ok { p with rules := text }
  | (.tex, _) => .ok { p with tex := true }
  | (.outline, _) => .ok { p with outline := true }
  | (.define, text) =>
    match text.bind definition? with
    | some d => .ok { p with definitions := p.definitions ++ [d] }
    | none => .error .misuse
  | (.verbose, _) => .ok p

/-- Carries out the switches of a word. -/
def applyAll (p : Progress) (c : Cluster) : Except Refusal Progress :=
  c.switches.foldlM apply { p with surplus := p.surplus || c.surplus }

/-- Reads words after a word of two dashes, where only the expression can stand. -/
def closing (p : Progress) (words : List String) : Except Refusal Progress :=
  match p.expression, words with
  | none, [e] => .ok { p with expression := some e }
  | _, _ => .error .misuse

/-- Reads words from the left to the right. Two dashes directly behind the expression do no harm. -/
def read (p : Progress) : List String → Except Refusal Progress
  | [] => .ok p
  | "--" :: rest => p.closing rest
  | word :: rest =>
    match classify word with
    | .value =>
      if p.expression.isSome then read { p with surplus := true } rest
      else if rest = ["--"] then .ok { p with expression := some word }
      else read { p with expression := some word } rest
    | .unknown => read { p with surplus := true } rest
    | .ambiguous => .error .misuse
    | .switch s isShort attached => do
      let c ← Cluster.ofSwitch s isShort attached
      match c.awaiting with
      | none => read (← p.applyAll c) rest
      | some t =>
        match rest with
        | [] => .error .misuse
        | argument :: rest =>
          if argument ≠ "--" ∧ classify argument = .value then
            read (← p.applyAll { c with switches := c.switches ++ [(t, some argument)] }) rest
          else .error .misuse

end Progress

/-- The request that a command line makes. -/
def Request.ofWords (words : List String) : Except Refusal Request :=
  if (words.takeWhile (· ≠ "--")).any fun word => classify word = .ambiguous then .error .misuse
  else
    match ({} : Progress).read words with
    | .error e => .error e
    | .ok p =>
      match p.expression, p.surplus with
      | some e, false => .ok ⟨e, p.rules, p.tex, p.outline, p.definitions⟩
      | _, _ => .error .misuse

end MathExpr.CommandLine
