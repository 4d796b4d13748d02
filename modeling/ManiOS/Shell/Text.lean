import Mathlib.Data.List.TakeDrop

/-!
# Command lines as text

The strings of ManiDOS, taken apart as `batch.c` and `main.c` do: words and
blanks, the command at the start of a line, and the expansion of percent signs.
A string is the list of its characters, without its NUL.
-/

namespace ManiOS.Shell

abbrev Str := List Char

/-- `LINE_MAX_DOS`. -/
def lineMax : Nat := 256
/-- `PATH_MAX_DOS`. -/
def pathMax : Nat := 128
/-- `ARGS_MAX_DOS`. -/
def argsMax : Nat := 32

/-- The double quote. -/
def quote : Char := Char.ofNat 34

def tab : Char := Char.ofNat 9

def isBlank (c : Char) : Bool := c == ' ' || c == tab

def skip (s : Str) : Str := s.dropWhile isBlank

def sameName (a b : Str) : Bool := a.map Char.toUpper == b.map Char.toUpper

/-! ## Words -/

/-- The end of a word: blanks in quotes belong to it.  The word and what follows. -/
def wordEnd : Bool → Str → Str × Str
  | _, [] => ([], [])
  | quoted, c :: cs =>
    if !quoted && isBlank c then ([], c :: cs)
    else
      let rest := wordEnd (if c = quote then !quoted else quoted) cs
      (c :: rest.1, rest.2)

/-- `next_word`: the word, cut to its buffer, and what follows. -/
def nextWord (s : Str) : Str × Str :=
  let w := wordEnd false (skip s)
  (w.1.take (lineMax - 1), w.2)

/-- `split_words`: up to `max - 1` words, without their quotes if `strip`. -/
def splitWords (strip : Bool) : Nat → Str → List Str
  | 0, _ => []
  | 1, _ => []
  | max + 2, s =>
    match skip s with
    | [] => []
    | c :: cs =>
      let w := wordEnd false (c :: cs)
      (if strip then w.1.filter (· ≠ quote) else w.1) ::
        (match w.2 with
          | [] => []
          | _ :: after => splitWords strip (max + 1) after)

/-- `strtok_r` at the separators: what is between them. -/
def tokens (isSep : Char → Bool) : Nat → Str → List Str
  | 0, _ => []
  | fuel + 1, s =>
    match s.dropWhile isSep with
    | [] => []
    | c :: cs =>
      (c :: cs).takeWhile (!isSep ·) :: tokens isSep fuel ((c :: cs).dropWhile (!isSep ·))

def atoi (s : Str) : Int :=
  let number (s : Str) : Int :=
    (s.takeWhile Char.isDigit).foldl (fun n c => 10 * n + (c.toNat - 48 : Nat)) (0 : Int)
  match s.dropWhile (fun c => isBlank c) with
  | '-' :: rest => - number rest
  | '+' :: rest => number rest
  | rest => number rest

/-! ## Commands -/

/-- The names of `COMMANDS`. -/
def commandNames : List Str :=
  [['C', 'A', 'L', 'L'], ['C', 'D'], ['C', 'H', 'D', 'I', 'R'], ['C', 'H', 'K', 'D', 'S', 'K'],
    ['C', 'L', 'S'], ['C', 'O', 'P', 'Y'], ['D', 'A', 'T', 'E'], ['D', 'E', 'L'], ['D', 'I', 'R'],
    ['D', 'R', 'I', 'V', 'E', 'S'], ['E', 'C', 'H', 'O'], ['E', 'R', 'A', 'S', 'E'],
    ['E', 'X', 'I', 'T'], ['F', 'D', 'I', 'S', 'K'], ['F', 'I', 'N', 'D'], ['F', 'O', 'R'],
    ['F', 'O', 'R', 'M', 'A', 'T'], ['G', 'O', 'T', 'O'], ['H', 'E', 'L', 'P'], ['I', 'F'],
    ['L', 'A', 'B', 'E', 'L'], ['M', 'D'], ['M', 'E', 'M'], ['M', 'K', 'D', 'I', 'R'],
    ['M', 'O', 'R', 'E'], ['P', 'A', 'T', 'H'], ['P', 'A', 'U', 'S', 'E'],
    ['P', 'R', 'O', 'M', 'P', 'T'], ['R', 'D'], ['R', 'E', 'M'], ['R', 'E', 'N'],
    ['R', 'E', 'N', 'A', 'M', 'E'], ['R', 'M', 'D', 'I', 'R'], ['S', 'E', 'T'],
    ['S', 'H', 'I', 'F', 'T'], ['S', 'O', 'R', 'T'], ['S', 'Y', 'S'], ['T', 'I', 'M', 'E'],
    ['T', 'R', 'E', 'E'], ['T', 'R', 'U', 'E', 'N', 'A', 'M', 'E'], ['T', 'Y', 'P', 'E'],
    ['V', 'E', 'R'], ['V', 'O', 'L']]

def findCommand (name : Str) : Option Str := commandNames.find? (sameName name)

/-- The characters that may come right after the name of a command. -/
def afterName : List Char := [' ', tab, '.', '/', '\\', ':', ';', '=', ',', '+', quote]

/-- `internal`: the command at the start of a line, and the text it is given. -/
def internal (text : Str) : Option (Str × Str) :=
  let name := (text.takeWhile Char.isAlpha).take 15
  let after := text.drop name.length
  match findCommand name with
  | none => none
  | some c =>
    match after with
    | [] => some (c, [])
    | d :: rest =>
      if d ∉ afterName then none
      -- the text starts after one blank
      else if isBlank d then some (c, rest) else some (c, d :: rest)

/-! ## Percent signs -/

/-- The parameters of a batch file, and how far they are shifted. -/
structure Params where
  params : List Str
  shift : Nat

/-- `%0` to `%9`. -/
def Params.param (b : Params) (d : Char) : Str :=
  let i := d.toNat - 48
  b.params.getD (if i = 0 then 0 else i + b.shift) []

/-- `variable`, on what follows a percent sign: the value of the variable named
up to the next one, and what follows that. -/
def variable' (env : Str → Option Str) (rest : Str) : Option (Str × Str) :=
  let name := rest.takeWhile (· ≠ '%')
  match rest.dropWhile (· ≠ '%') with
  | [] => none
  | _ :: after =>
    if name = [] ∨ name.length + 1 > 64 ∨ name.any isBlank then none
    else (env name).map fun v => (v, after)

/-- What `expand` puts in the place of a percent sign and some of what follows
it, and what is left. -/
def percent (b : Option Params) (env : Str → Option Str) (rest : Str) : Option (Str × Str) :=
  match b, rest with
  | some b, c :: cs =>
    if c = '%' then some (['%'], cs)
    else if c.isDigit then some (b.param c, cs)
    else variable' env (c :: cs)
  | _, rest => variable' env rest

/-- The loop of `expand`, in a buffer without an end. -/
def expandFrom (b : Option Params) (env : Str → Option Str) : Nat → Str → Str
  | 0, _ => []
  | _, [] => []
  | fuel + 1, c :: rest =>
    if c = '%' then
      match percent b env rest with
      | some (add, after) => add ++ expandFrom b env fuel after
      | none => c :: expandFrom b env fuel rest
    else c :: expandFrom b env fuel rest

/-- What a line expands to, whatever its length. -/
def expandAll (b : Option Params) (env : Str → Option Str) (line : Str) : Str :=
  expandFrom b env line.length line

/-- `expand`, in a buffer of `size` bytes. -/
def expand (b : Option Params) (env : Str → Option Str) (size : Nat) (line : Str) : Str :=
  (expandAll b env line).take (size - 1)

/-- `substitute`, in a buffer without an end. -/
def substituteAll (var : Char) (value : Str) : Nat → Str → Str
  | 0, _ => []
  | _, [] => []
  | _ + 1, [c] => [c]
  | fuel + 1, c :: d :: rest =>
    if c = '%' ∧ d.toUpper = var.toUpper then value ++ substituteAll var value fuel rest
    else c :: substituteAll var value fuel (d :: rest)

def substitute (var : Char) (value : Str) (cmd : Str) : Str :=
  (substituteAll var value cmd.length cmd).take (lineMax - 1)

end ManiOS.Shell
