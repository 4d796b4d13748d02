import ManiOS.Shell.Redirect

/-!
# Running a command line

`run_line` expands a line, cuts it into stages and runs them; the last stage runs
in ManiDOS itself, where `IF`, `FOR` and `CALL` run lines again and a batch file
runs its lines one by one.  A batch file that is started from another without
`CALL` takes its place: the other is marked done, and ends when the new one
comes back.

The rest of the system is a `Host`: how programs are found, what is in files, and
what programs and the other commands do.  `exec` counts the depth of calls by a
fuel and gives nothing when it runs out.
-/

namespace ManiOS.Shell

variable {W : Type}

def maxNesting : Nat := 8

/-- `struct batch`. -/
structure Batch where
  lines : List Str
  next : Nat
  params : Params
  done : Bool

/-- What programs and other commands see and change. -/
structure Outer (W : Type) where
  world : W
  env : Str → Option Str
  echoOn : Bool
  leaving : Bool
  errorlevel : Int

/-- The state of ManiDOS; the stack has its top first. -/
structure Session (W : Type) where
  outer : Outer W
  stack : List Batch
  calling : Bool
  table : Table
  /-- The batch files that were started, in order. -/
  started : List Str

/-- What `find_program` finds. -/
inductive Found
  | notFound
  | program (path : Str)
  | batch (path : Str)
  | dosProgram

/-- The system around ManiDOS. -/
structure Host (W : Type) where
  findProgram : Str → Outer W → Found
  /-- The lines of a batch file. -/
  load : Str → W → Option (List Str)
  /-- The test of `IF EXIST`. -/
  exist : Str → W → Bool
  /-- The files that a wildcard of `FOR` matches. -/
  matching : Str → W → List Str
  /-- A command other than those of batch files, on its text. -/
  command : Str → Str → Outer W → Int × Outer W
  /-- A drive letter and a colon. -/
  drive : Char → Outer W → Int × Outer W
  program : Str → List Str → Outer W → Int × Outer W
  /-- A stage in a process of its own. -/
  apart : Str → Outer W → Outer W
  openRedirect : Str → Bool → Bool → Outer W → Option (Outer W)

/-- What running something gives: a return code and the state after. -/
abbrev Result (W : Type) := Option (Int × Session W)

abbrev Runner (W : Type) := Str → Session W → Result W

namespace Session

variable (st : Session W)

/-- The parameters of the batch file that is running. -/
def params : Option Params := st.stack.head?.map Batch.params

def expandLine (line : Str) : Str := expand st.params st.outer.env lineMax line

def setErrorlevel (rc : Int) : Session W := { st with outer := { st.outer with errorlevel := rc } }

/-- The batch file that is running, changed. -/
def withTop (f : Batch → Batch) : Session W :=
  match st.stack with
  | [] => st
  | b :: rest => { st with stack := f b :: rest }

end Session

/-! ## IF -/

/-- The condition of `IF` after a word, and what follows it; nothing for a syntax
error. -/
def ifTest (host : Host W) (st : Session W) (word rest : Str) : Option (Bool × Str) :=
  if sameName word ['E', 'R', 'R', 'O', 'R', 'L', 'E', 'V', 'E', 'L'] then
    let w := nextWord rest
    some (decide (st.outer.errorlevel ≥ atoi w.1), w.2)
  else if sameName word ['E', 'X', 'I', 'S', 'T'] then
    let w := nextWord rest
    some (host.exist w.1 st.outer.world, w.2)
  else
    -- the words either side of `==`, compared as they are
    let rec cutEq : Str → Option (Str × Str)
      | '=' :: '=' :: right => some ([], right)
      | c :: cs => (cutEq cs).map fun p => (c :: p.1, p.2)
      | [] => none
    match cutEq word with
    | some (left, []) =>
      let w := nextWord rest
      some (left == w.1, w.2)
    | some (left, right) => some (left == right, rest)
    | none =>
      let w := nextWord rest
      match w.1 with
      | '=' :: '=' :: [] =>
        let right := nextWord w.2
        some (word == right.1, right.2)
      | '=' :: '=' :: right => some (word == right, w.2)
      | _ => none

/-- `if_command` up to the command: whether it is run, and the command. -/
def ifParse (host : Host W) (st : Session W) (rest : Str) : Option (Bool × Str) :=
  let w := nextWord rest
  let negate := sameName w.1 ['N', 'O', 'T']
  let w := if negate then nextWord w.2 else w
  match ifTest host st w.1 w.2 with
  | none => none
  | some (yes, p) => if skip p = [] then none else some (yes != negate, skip p)

def ifCommand (host : Host W) (run : Runner W) (rest : Str) (st : Session W) : Result W :=
  match ifParse host st rest with
  | none => some (1, st)
  | some (true, cmd) => run cmd st
  | some (false, _) => some (0, st)

/-! ## FOR -/

/-- The separators of the set of `FOR`. -/
def setSep (c : Char) : Bool := isBlank c || c == ',' || c == ';'

def hasWild (s : Str) : Bool := s.any fun c => c == '*' || c == '?'

/-- `strncasecmp` with a whole word. -/
def startsWith (word s : Str) : Bool := sameName (s.take word.length) word

/-- `for_command` up to its loop: the variable, the set and the command. -/
def forParse (rest : Str) : Option (Char × Str × Str) :=
  match skip rest with
  | '%' :: var :: p =>
    if !var.isAlpha then none
    else
      let p := skip p
      if !startsWith ['I', 'N'] p then none
      else
        match skip (p.drop 2) with
        | '(' :: p =>
          match p.dropWhile (· ≠ ')') with
          | [] => none
          | _ :: after =>
            let q := skip after
            if !startsWith ['D', 'O'] q || !((q.drop 2).head?.any isBlank) then none
            else
              some (var, (p.takeWhile (· ≠ ')')).take (lineMax - 1), skip (q.drop 2))
        | _ => none
  | _ => none

/-- The items of a set. -/
def forItems (host : Host W) (st : Session W) (set : Str) : List Str :=
  (tokens setSep set.length set).flatMap fun item =>
    if hasWild item then host.matching item st.outer.world else [item]

/-- The loop of `for_command`. -/
def forLoop (run : Runner W) (var : Char) (cmd : Str) : List Str → Int → Session W → Result W
  | [], rc, st => some (rc, st)
  | item :: items, rc, st =>
    if st.outer.leaving then some (rc, st)
    else (run (substitute var item cmd) st).bind fun r => forLoop run var cmd items r.1 r.2

def forCommand (host : Host W) (run : Runner W) (rest : Str) (st : Session W) : Result W :=
  match forParse rest with
  | none => some (1, st)
  | some (var, set, cmd) => forLoop run var cmd (forItems host st set) 0 st

/-! ## Batch files -/

/-- `batch_goto` in the lines of a batch file: the line after the label. -/
def findLabel (want : Str) : List Str → Nat → Option Nat
  | [], _ => none
  | line :: lines, i =>
    match skip line with
    | ':' :: label =>
      if sameName (label.takeWhile (!isBlank ·)) want then some (i + 1)
      else findLabel want lines (i + 1)
    | _ => findLabel want lines (i + 1)

def batchGoto (label : Str) (b : Batch) : Batch :=
  let want := match label with
    | ':' :: rest => rest
    | label => label
  if sameName want ['E', 'O', 'F'] then { b with done := true }
  else
    match findLabel want b.lines 0 with
    | some next => { b with next := next }
    | none => { b with done := true }

def batchShift (b : Batch) : Batch :=
  { b with params := { b.params with shift := b.params.shift + 1 } }

def runCall (run : Runner W) (line : Str) (st : Session W) : Result W :=
  (run line { st with calling := true }).map fun r => (r.1, { r.2 with calling := false })

/-- The loop of `run_batch` over the lines of the batch file on top. -/
def batchLoop (run : Runner W) : Nat → Session W → Option (Session W)
  | 0, _ => none
  | fuel + 1, st =>
    match st.stack with
    | [] => none
    | b :: _ =>
      if b.next < b.lines.length && !b.done && !st.outer.leaving then
        let st' := st.withTop fun b => { b with next := b.next + 1 }
        match skip (b.lines.getD b.next []) with
        -- a label, or nothing
        | [] => batchLoop run fuel st'
        | ':' :: _ => batchLoop run fuel st'
        | p => (run p st').bind fun r => batchLoop run fuel r.2
      else some st

/-- The end of `run_batch`: back at the prompt, echoing is as it was. -/
def popBatch (echoBefore : Bool) (st : Session W) : Session W :=
  let st := { st with stack := st.stack.drop 1 }
  if st.stack = [] then { st with outer := { st.outer with echoOn := echoBefore } } else st

def runBatch (host : Host W) (run : Runner W) (fuel : Nat) (path : Str) (argv : List Str)
    (call : Bool) (st : Session W) : Result W :=
  if st.stack.length = maxNesting then some (1, st)
  else
    -- without `CALL` it replaces the one that runs
    let st := if call then st else st.withTop fun b => { b with done := true }
    match host.load path st.outer.world with
    | none => some (1, st)
    | some lines =>
      let b : Batch := ⟨lines, 0, ⟨argv.take argsMax, 0⟩, false⟩
      let st' := { st with stack := b :: st.stack, started := st.started ++ [path] }
      (batchLoop run fuel st').map fun st'' =>
        let st'' := popBatch st.outer.echoOn st''
        (st''.outer.errorlevel, st'')

/-! ## Commands -/

/-- A command of `COMMANDS`. -/
def runCommand (host : Host W) (run : Runner W) (name rest : Str) (st : Session W) : Result W :=
  if name = ['I', 'F'] then ifCommand host run rest st
  else if name = ['F', 'O', 'R'] then forCommand host run rest st
  else if name = ['C', 'A', 'L', 'L'] then
    if skip rest = [] then some (0, st) else runCall run (skip rest) st
  else if name = ['G', 'O', 'T', 'O'] then
    match splitWords false argsMax (rest.take (lineMax - 1)) with
    | [] => some (1, st)
    | label :: _ => some (0, st.withTop (batchGoto label))
  else if name = ['S', 'H', 'I', 'F', 'T'] then some (0, st.withTop batchShift)
  else
    let r := host.command name rest st.outer
    some (r.1, { st with outer := r.2 })

def runHere (host : Host W) (run : Runner W) (fuel : Nat) (text : Str) (st : Session W) :
    Result W :=
  let text := skip text
  match text with
  | letter :: ':' :: after =>
    if letter.isAlpha && (skip after).isEmpty then
      let r := host.drive letter st.outer
      some (r.1, { st with outer := r.2 })
    else runWord text
  | _ => runWord text
where
  /-- A command, a batch file or a program. -/
  runWord (text : Str) : Result W := match internal text with
    | some (name, rest) => runCommand host run name rest st
    | none =>
      match splitWords true argsMax text with
      | [] => some (1, st)
      | word :: args =>
        match host.findProgram word st.outer with
        | .notFound => some (1, st)
        | .dosProgram => some (1, st)
        | .batch path =>
          runBatch host run fuel path (word :: args) st.calling { st with calling := false }
        | .program path =>
          let r := host.program path args st.outer
          some (r.1, { st with outer := r.2 })

/-- The files of a stage are opened; the state after, or nothing if one cannot be. -/
def openFiles (host : Host W) (s : Stage) (st : Session W) : Option (Session W) :=
  let opened := match s.input st.table with
    | none => some st.outer
    | some name => host.openRedirect name false false st.outer
  let opened := match s.output st.table with
    | none => opened
    | some (name, append) => opened.bind (host.openRedirect name true append)
  opened.map fun outer => { st with outer := outer }

/-- The second loop of `run_line`, over the stages. -/
def runStages (host : Host W) (run : Runner W) (fuel : Nat) : List Stage → Session W → Result W
  | [], st => some (0, st)
  | s :: rest, st =>
    match openFiles host s st with
    | none => some (1, st)
    | some st =>
      match rest with
      | [] => runHere host run fuel s.text st
      | _ => runStages host run fuel rest { st with outer := host.apart s.text st.outer }

/-- A leading `IF`, `FOR` or `REM` takes the rest of the line whole. -/
def isWhole (p : Str) : Bool :=
  match internal p with
  | some (name, _) => name == ['I', 'F'] || name == ['F', 'O', 'R'] || name == ['R', 'E', 'M']
  | none => false

/-- The blanks and `@` at the start of a line. -/
def isLead (c : Char) : Bool := isBlank c || c == '@'

/-- `run_line` on an expanded line. -/
def execLine (host : Host W) (run : Runner W) (fuel : Nat) (text : Str) (st : Session W) :
    Result W :=
  let p := text.dropWhile isLead
  if p = [] then some (st.outer.errorlevel, st)
  else
    let parsed :=
      if isWhole p then (some [Stage.bare p], st.table)
      else parseStages 0 (splitPipes false p) st.table
    let st := { st with table := parsed.2 }
    match parsed.1 with
    | none => some (1, st.setErrorlevel 1)
    | some stages =>
      (runStages host run fuel stages st).map fun r => (r.1, r.2.setErrorlevel r.1)

/-- Runs an expanded line. -/
def exec (host : Host W) : Nat → Str → Session W → Result W
  | 0, _, _ => none
  | fuel + 1, text, st =>
    execLine host (fun line st => exec host fuel (st.expandLine line) st) fuel text st

def runLine (host : Host W) (fuel : Nat) (line : Str) (st : Session W) : Result W :=
  exec host fuel (st.expandLine line) st

end ManiOS.Shell
