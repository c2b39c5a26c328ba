import PieceLedger.Bytes

/-!
Options on a command line.

An option has a letter and a name.  Letters follow one dash and may be
bundled; names follow one or two dashes and may be shortened as long as they
are unmistakable.  A word behind a single dash is first tried as a name,
unless it is the letter of an option and nothing else.  An argument is
attached (`-xvalue`, `--name=value`) or is the next word, whatever that is.
Words that are no options are passed over, and `--` ends the options.

Scanning stops at the first complaint.
-/

namespace PieceLedger.CommandLine

structure OptionSpec where
  name : Bytes
  letter : UInt8
  takesArgument : Bool
  deriving DecidableEq, Repr

abbrev OptionTable := List OptionSpec

/-- What is wrong with a word; names and words are given with their dashes. -/
inductive Complaint where
  | ambiguous (written : Bytes) (candidates : List Bytes)
  | unrecognized (written : Bytes)
  | unwantedArgument (name : Bytes)
  | missingArgument (name : Bytes)
  | invalidLetter (letter : UInt8)
  | letterMissingArgument (letter : UInt8)
  deriving DecidableEq, Repr

inductive Item where
  | option (letter : UInt8) (argument : Option Bytes)
  | complaint (cause : Complaint)
  deriving DecidableEq, Repr

/-- How a word ends: by itself, with a complaint, or wanting the next word as
the argument of an option. -/
inductive Ending where
  | complete
  | refused (cause : Complaint)
  | wants (letter : UInt8) (otherwise : Complaint)
  deriving DecidableEq, Repr

def dash : UInt8 := 45

def equals : UInt8 := 61

def colon : UInt8 := 58

namespace OptionTable

def ofLetter? (table : OptionTable) (letter : UInt8) : Option OptionSpec :=
  List.find? (fun spec => spec.letter = letter) table

/-- Whether a byte could stand behind a dash as a letter; a colon is taken for
one until it is looked up. -/
def mayBeLetter (table : OptionTable) (c : UInt8) : Bool :=
  c = colon || (table.ofLetter? c).isSome

/-- The options that a name stands for: the one of that name, or all that
start with it. -/
def named (table : OptionTable) (name : Bytes) : List OptionSpec :=
  match List.find? (fun spec => spec.name = name) table with
  | some spec => [spec]
  | none => table.filter fun spec => name.isPrefixOf spec.name

end OptionTable

/-! ## Words -/

def readLetters (table : OptionTable) : Bytes → List Item × Ending
  | [] => ([], .complete)
  | c :: rest =>
      match table.ofLetter? c with
      | none => ([], .refused (.invalidLetter c))
      | some spec =>
          if !spec.takesArgument then
            let (items, ending) := readLetters table rest
            (.option c none :: items, ending)
          else if rest = [] then ([], .wants c (.letterMissingArgument c))
          else ([.option c (some rest)], .complete)

/-- Reads an option that was found by name; `attached` is what followed an
equals sign. -/
def readNamed (dashes : Bytes) (spec : OptionSpec) (attached : Option Bytes) :
    List Item × Ending :=
  match spec.takesArgument, attached with
  | true, none => ([], .wants spec.letter (.missingArgument (dashes ++ spec.name)))
  | false, some _ => ([], .refused (.unwantedArgument (dashes ++ spec.name)))
  | _, attached => ([.option spec.letter attached], .complete)

def readName (table : OptionTable) (dashes text : Bytes) : Option (List Item × Ending) :=
  let attached :=
    match text.dropWhile (· ≠ equals) with
    | [] => none
    | _ :: value => some value
  match table.named (text.takeWhile (· ≠ equals)) with
  | [] => none
  | [spec] => some (readNamed dashes spec attached)
  | several =>
      some ([], .refused (.ambiguous (dashes ++ text) (several.map (dashes ++ ·.name))))

def readWord (table : OptionTable) (word : Bytes) : List Item × Ending :=
  match word with
  | _ :: c :: rest =>
      if c = dash then
        (readName table [dash, dash] rest).getD ([], .refused (.unrecognized word))
      else if rest = [] && table.mayBeLetter c then readLetters table [c]
      else
        match readName table [dash] (c :: rest) with
        | some reading => reading
        | none =>
            if table.mayBeLetter c then readLetters table (c :: rest)
            else ([], .refused (.unrecognized word))
  | _ => ([], .complete)

/-! ## Lines -/

def isOption (word : Bytes) : Bool :=
  match word with
  | c :: _ :: _ => c = dash
  | _ => false

def scan (table : OptionTable) : List Bytes → List Item
  | [] => []
  | word :: rest =>
      if !isOption word then scan table rest
      else if word = [dash, dash] then []
      else
        match readWord table word with
        | (items, .complete) => items ++ scan table rest
        | (items, .refused cause) => items ++ [.complaint cause]
        | (items, .wants letter otherwise) =>
            match rest with
            | [] => items ++ [.complaint otherwise]
            | value :: rest => items ++ .option letter (some value) :: scan table rest

/-! ## Complaints in words -/

def quoted (b : Bytes) : Bytes := 39 :: b ++ [39]

def Complaint.text : Complaint → Bytes
  | .ambiguous written candidates =>
      Bytes.ofString "option " ++ quoted written ++ Bytes.ofString " is ambiguous; possibilities:"
        ++ candidates.flatMap fun name => 32 :: quoted name
  | .unrecognized written => Bytes.ofString "unrecognized option " ++ quoted written
  | .unwantedArgument name =>
      Bytes.ofString "option " ++ quoted name ++ Bytes.ofString " doesn't allow an argument"
  | .missingArgument name =>
      Bytes.ofString "option " ++ quoted name ++ Bytes.ofString " requires an argument"
  | .invalidLetter letter => Bytes.ofString "invalid option -- " ++ quoted [letter]
  | .letterMissingArgument letter =>
      Bytes.ofString "option requires an argument -- " ++ quoted [letter]

end PieceLedger.CommandLine
