import ManiOS.Shell.Text
import ManiOS.Lib.Runs
import Mathlib.Data.List.Induction

/-!
# Redirections

A command line is cut into stages at its bars, and `<`, `>` and `>>` with their
file names are cut out of each stage.  The names go to one table of sixteen rows.
The row for the next name is kept from line to line, and goes back to the first
before a stage that finds fewer than three rows left.

So a stage with many redirections writes past the table, and the names of an early
stage may be written over by those of a later one (`written_over`).  Where neither
happens each stage starts with the last names of its own text (`redirected`).
-/

namespace ManiOS.Shell

open Function (update)

def maxStages : Nat := 8

/-- The table of file names, and the row that the next one goes to. -/
structure Table where
  names : Nat → Str
  used : Nat

/-- The rows of the table. -/
def Table.size : Nat := maxStages * 2

/-- `struct stage`, its files by their rows. -/
structure Stage where
  text : Str
  inFile : Option Nat
  outFile : Option Nat
  append : Bool

/-- A file name ends here. -/
def endsName (c : Char) : Bool := isBlank c || c == '<' || c == '>' || c == '|'

/-- The row for the first name of a stage. -/
def firstRow (used : Nat) : Nat := if used ≥ Table.size - 2 then 0 else used

/-- A redirection as it is written. -/
structure Redirection where
  output : Bool
  append : Bool
  name : Str
  deriving DecidableEq

/-- The redirection at a `<` or `>`, and what follows it. -/
def readName (c : Char) (rest : Str) : Option (Redirection × Str) :=
  let output := c == '>'
  let append := output && rest.head? == some '>'
  let p := skip (if append then rest.drop 1 else rest)
  let name := p.takeWhile (!endsName ·)
  if name = [] then none else some (⟨output, append, name⟩, p.drop name.length)

/-- A redirection whose name is at `row`. -/
def Stage.note (row : Nat) (r : Redirection) (s : Stage) : Stage :=
  if r.output then { s with outFile := some row, append := r.append }
  else { s with inFile := some row }

namespace Table

/-- A name goes to the next row, cut to the row's length. -/
def store (name : Str) (t : Table) : Table :=
  ⟨update t.names t.used (name.take (pathMax - 1)), t.used + 1⟩

/-- The loop of `redirections`: the stage's text without them, or nothing for a
syntax error. -/
def cut : Nat → Bool → Str → Str → Stage → Table → Option Stage × Table
  | 0, _, _, _, _, t => (none, t)
  | _ + 1, _, out, [], s, t => (some { s with text := (out.reverse.dropWhile isBlank).reverse }, t)
  | fuel + 1, quoted, out, c :: rest, s, t =>
    let quoted := if c = quote then !quoted else quoted
    if quoted || (c != '<' && c != '>') then cut fuel quoted (out ++ [c]) rest s t
    else
      match readName c rest with
      | none => (none, t)
      | some (r, p) => cut fuel quoted out p (s.note t.used r) (t.store r.name)

def redirections (text : Str) (t : Table) : Option Stage × Table :=
  cut (text.length + 1) false [] text ⟨text, none, none, false⟩ { t with used := firstRow t.used }

end Table

/-- A line cut at its bars, those in quotes apart. -/
def splitPipes : Bool → Str → List Str
  | _, [] => [[]]
  | quoted, c :: cs =>
    let quoted := if c = quote then !quoted else quoted
    if c = '|' && !quoted then [] :: splitPipes quoted cs
    else
      match splitPipes quoted cs with
      | [] => [[c]]
      | piece :: pieces => (c :: piece) :: pieces

/-- The stages of a line, or nothing for a syntax error; `n` stages came before. -/
def parseStages : Nat → List Str → Table → Option (List Stage) × Table
  | _, [], t => (some [], t)
  | n, piece :: pieces, t =>
    if n = maxStages then (none, t)
    else
      match t.redirections piece with
      | (none, t') => (none, t')
      | (some s, t') =>
        if skip s.text = [] then (none, t')
        else
          match parseStages (n + 1) pieces t' with
          | (none, t'') => (none, t'')
          | (some stages, t'') => (some (s :: stages), t'')

/-- The names that a stage is started with. -/
def Stage.input (s : Stage) (t : Table) : Option Str := s.inFile.map t.names

def Stage.output (s : Stage) (t : Table) : Option (Str × Bool) :=
  s.outFile.map fun row => (t.names row, s.append)

/-! ## What a stage's text says -/

/-- The redirections of a text, up to a syntax error, and the text without them
if there is none. -/
def written : Nat → Bool → Str → Str → List Redirection × Option Str
  | 0, _, _, _ => ([], none)
  | _ + 1, _, out, [] => ([], some (out.reverse.dropWhile isBlank).reverse)
  | fuel + 1, quoted, out, c :: rest =>
    let quoted := if c = quote then !quoted else quoted
    if quoted || (c != '<' && c != '>') then written fuel quoted (out ++ [c]) rest
    else
      match readName c rest with
      | none => ([], none)
      | some (r, p) => (r :: (written fuel quoted out p).1, (written fuel quoted out p).2)

def writtenIn (text : Str) : List Redirection × Option Str :=
  written (text.length + 1) false [] text

/-- The last `<` of some redirections; its name cut to a row's length. -/
def lastInput (rs : List Redirection) : Option Str :=
  ((rs.filter fun r => !r.output).getLast?).map fun r => r.name.take (pathMax - 1)

def lastOutput (rs : List Redirection) : Option (Str × Bool) :=
  ((rs.filter fun r => r.output).getLast?).map fun r => (r.name.take (pathMax - 1), r.append)

/-- The stage cut from `piece` is started with the last names of that text. -/
def Right (t : Table) (piece : Str) (s : Stage) : Prop :=
  s.input t = lastInput (writtenIn piece).1 ∧ s.output t = lastOutput (writtenIn piece).1

/-! ## The rows that are written -/

/-- The row of the last `<`, the first redirection being at `row`. -/
def inRow (row : Nat) (rs : List Redirection) : Option Nat :=
  (((rs.zipIdx row).filter fun p => !p.1.output).getLast?).map fun p => p.2

/-- The row of the last `>` or `>>`. -/
def outRow (row : Nat) (rs : List Redirection) : Option Nat :=
  (((rs.zipIdx row).filter fun p => p.1.output).getLast?).map fun p => p.2

/-- The redirections of the stages that are looked at, up to a syntax error. -/
def scanned : Nat → List Str → List (List Redirection)
  | _, [] => []
  | n, piece :: pieces =>
    if n = maxStages then []
    else
      match writtenIn piece with
      | (rs, none) => [rs]
      | (rs, some text) => if skip text = [] then [rs] else rs :: scanned (n + 1) pieces

/-- No stage has more redirections than there are rows left for it. -/
def Within : Nat → List (List Redirection) → Prop
  | _, [] => True
  | used, rs :: rest =>
    firstRow used + rs.length ≤ Table.size ∧ Within (firstRow used + rs.length) rest

/-- No redirection of the stages goes to `row`. -/
def Clear (row : Nat) : Nat → List (List Redirection) → Prop
  | _, [] => True
  | used, rs :: rest =>
    ¬ (firstRow used ≤ row ∧ row < firstRow used + rs.length) ∧
      Clear row (firstRow used + rs.length) rest

/-- No stage writes to the row of an earlier one's last `<` or last `>`. -/
def Apart : Nat → List (List Redirection) → Prop
  | _, [] => True
  | used, rs :: rest =>
    (∀ row, inRow (firstRow used) rs = some row ∨ outRow (firstRow used) rs = some row →
      Clear row (firstRow used + rs.length) rest) ∧
    Apart (firstRow used + rs.length) rest

/-! ## One stage -/

/-- The redirections one after another. -/
def place : List Redirection → Stage → Table → Stage × Table
  | [], s, t => (s, t)
  | r :: rs, s, t => place rs (s.note t.used r) (t.store r.name)

/-- The stage and the table after the loop of `redirections`. -/
def placed (found : List Redirection × Option Str) (s : Stage) (t : Table) :
    Option Stage × Table :=
  (found.2.map fun text => { (place found.1 s t).1 with text := text }, (place found.1 s t).2)

theorem cut_eq (fuel : Nat) : ∀ (quoted : Bool) (out text : Str) (s : Stage) (t : Table),
    Table.cut fuel quoted out text s t = placed (written fuel quoted out text) s t := by
  induction fuel with
  | zero => exact fun _ _ _ _ _ => rfl
  | succ fuel ih =>
    intro quoted out text s t
    cases text with
    | nil => rfl
    | cons c rest =>
      unfold Table.cut written
      generalize (if c = quote then !quoted else quoted) = quoted
      by_cases hplain : (quoted || (c != '<' && c != '>')) = true
      · rw [if_pos hplain, if_pos hplain, ih]
      · rw [if_neg hplain, if_neg hplain]
        cases readName c rest with
        | none => rfl
        | some found => exact ih _ _ _ _ _

theorem place_append (rs : List Redirection) (r : Redirection) : ∀ (s : Stage) (t : Table),
    place (rs ++ [r]) s t =
      ((place rs s t).1.note (place rs s t).2.used r, (place rs s t).2.store r.name) := by
  induction rs with
  | nil => exact fun _ _ => rfl
  | cons r' rs ih => exact fun s t => ih _ _

def Stage.bare (text : Str) : Stage := ⟨text, none, none, false⟩

/-- What the redirections of one stage leave. -/
structure Placed (rs : List Redirection) (t : Table) (s' : Stage) (t' : Table) : Prop where
  used : t'.used = t.used + rs.length
  outside : ∀ row, row < t.used ∨ t.used + rs.length ≤ row → t'.names row = t.names row
  inFile : s'.inFile = inRow t.used rs
  outFile : s'.outFile = outRow t.used rs
  below : ∀ row, s'.inFile = some row ∨ s'.outFile = some row → row < t'.used
  input : s'.input t' = lastInput rs
  output : s'.output t' = lastOutput rs

theorem Table.store_names (t : Table) (name : Str) (row : Nat) : (t.store name).names row =
      if row = t.used then name.take (pathMax - 1) else t.names row := by
  by_cases h : row = t.used
  · subst h
    simp [Table.store]
  · simp [Table.store, h]

variable {s : Stage} {t : Table} {rs : List Redirection}

theorem Table.store_below {row : Nat} (name : Str) (h : row < t.used) :
    (t.store name).names row = t.names row := by
  rw [Table.store_names, if_neg (by omega)]

theorem inRow_append (row : Nat) (rs : List Redirection) (r : Redirection) :
    inRow row (rs ++ [r]) = if r.output then inRow row rs else some (row + rs.length) := by
  unfold inRow
  rw [List.zipIdx_append]
  cases hr : r.output with
  | false => simp [hr]
  | true => simp [hr]

theorem outRow_append (row : Nat) (rs : List Redirection) (r : Redirection) :
    outRow row (rs ++ [r]) = if r.output then some (row + rs.length) else outRow row rs := by
  unfold outRow
  rw [List.zipIdx_append]
  cases hr : r.output with
  | false => simp [hr]
  | true => simp [hr]

theorem lastInput_append (rs : List Redirection) (r : Redirection) : lastInput (rs ++ [r]) =
      if r.output then lastInput rs else some (r.name.take (pathMax - 1)) := by
  unfold lastInput
  cases hr : r.output with
  | false => simp [hr]
  | true => simp [hr]

theorem lastOutput_append (rs : List Redirection) (r : Redirection) : lastOutput (rs ++ [r]) =
      if r.output then some (r.name.take (pathMax - 1), r.append) else lastOutput rs := by
  unfold lastOutput
  cases hr : r.output with
  | false => simp [hr]
  | true => simp [hr]

theorem Stage.input_store (name : Str)
    (h : ∀ row, s.inFile = some row → row < t.used) : s.input (t.store name) = s.input t := by
  unfold Stage.input
  cases hrow : s.inFile with
  | none => rfl
  | some row => exact congrArg some (Table.store_below _ (h row hrow))

theorem Stage.output_store (name : Str)
    (h : ∀ row, s.outFile = some row → row < t.used) : s.output (t.store name) = s.output t := by
  unfold Stage.output
  cases hrow : s.outFile with
  | none => rfl
  | some row =>
    show some ((t.store name).names row, s.append) = some (t.names row, s.append)
    rw [Table.store_below name (h row hrow)]

variable {t' t : Table}

theorem placed_step {s' : Stage} (r : Redirection)
    (h : Placed rs t s' t') : Placed (rs ++ [r]) t (s'.note t'.used r) (t'.store r.name) := by
  have hself : (t'.store r.name).names t'.used = r.name.take (pathMax - 1) := by
    rw [Table.store_names, if_pos rfl]
  have hused : (t'.store r.name).used = t'.used + 1 := rfl
  have hlen : (rs ++ [r]).length = rs.length + 1 := by simp
  have hbefore := h.used
  have houtside : ∀ row, row < t.used ∨ t.used + (rs ++ [r]).length ≤ row →
      (t'.store r.name).names row = t.names row := by
    intro row hrow
    rw [Table.store_names, if_neg (by omega)]
    exact h.outside row (by omega)
  have hin : s'.input (t'.store r.name) = lastInput rs :=
    (Stage.input_store _ fun row hrow => h.below row (.inl hrow)).trans h.input
  have hout : s'.output (t'.store r.name) = lastOutput rs :=
    (Stage.output_store _ fun row hrow => h.below row (.inr hrow)).trans h.output
  have hbelow : ∀ row, s'.inFile = some row ∨ s'.outFile = some row → row < t'.used + 1 :=
    fun row hrow => Nat.lt_succ_of_lt (h.below row hrow)
  unfold Stage.note
  cases hr : r.output with
  | true =>
    rw [if_pos rfl]
    refine ⟨by omega, houtside, ?_, ?_, fun row hrow => ?_, ?_, ?_⟩
    · rw [inRow_append, hr]
      exact h.inFile
    · rw [outRow_append, hr, if_pos rfl, ← hbefore]
    · rcases hrow with hrow | hrow
      · exact hbelow row (.inl hrow)
      · cases hrow
        exact Nat.lt_succ_self _
    · rw [lastInput_append, hr]
      exact hin
    · rw [lastOutput_append, hr, if_pos rfl]
      show some ((t'.store r.name).names t'.used, r.append) = _
      rw [hself]
  | false =>
    rw [if_neg Bool.false_ne_true]
    refine ⟨by omega, houtside, ?_, ?_, fun row hrow => ?_, ?_, ?_⟩
    · rw [inRow_append, hr, if_neg Bool.false_ne_true, ← hbefore]
    · rw [outRow_append, hr]
      exact h.outFile
    · rcases hrow with hrow | hrow
      · cases hrow
        exact Nat.lt_succ_self _
      · exact hbelow row (.inr hrow)
    · rw [lastInput_append, hr, if_neg Bool.false_ne_true]
      show some ((t'.store r.name).names t'.used) = _
      rw [hself]
    · rw [lastOutput_append, hr]
      exact hout

theorem place_placed (rs : List Redirection) (text : Str) (t : Table) :
    Placed rs t (place rs (Stage.bare text) t).1 (place rs (Stage.bare text) t).2 := by
  induction rs using List.reverseRecOn with
  | nil =>
    refine ⟨rfl, fun _ _ => rfl, rfl, rfl, fun row hrow => ?_, rfl, rfl⟩
    rcases hrow with h | h
    · cases h
    · cases h
  | append_singleton rs r ih =>
    rw [place_append]
    exact placed_step r ih

theorem redirections_placed {text : Str} {res : Option Stage}
    (h : t.redirections text = (res, t')) :
    Placed (writtenIn text).1 { t with used := firstRow t.used }
        (place (writtenIn text).1 (.bare text) { t with used := firstRow t.used }).1 t' ∧
      res = (writtenIn text).2.map fun text' =>
        { (place (writtenIn text).1 (.bare text) { t with used := firstRow t.used }).1 with
          text := text' } := by
  unfold Table.redirections at h
  rw [cut_eq] at h
  obtain ⟨hres, ht⟩ := Prod.mk.inj h
  rw [← ht, ← hres]
  exact ⟨place_placed _ text _, rfl⟩

/-! ## The stages of a line -/

theorem Placed.names_eq {row : Nat} (h : Placed rs { t with used := firstRow t.used } s t')
    (hrow : ¬ (firstRow t.used ≤ row ∧ row < firstRow t.used + rs.length)) :
    t'.names row = t.names row := by
  refine h.outside row ?_
  show row < firstRow t.used ∨ firstRow t.used + rs.length ≤ row
  omega

theorem Placed.later {t'' : Table} (h : Placed rs { t with used := firstRow t.used } s t')
    (hkeep : ∀ row, inRow (firstRow t.used) rs = some row ∨ outRow (firstRow t.used) rs = some row →
      t''.names row = t'.names row) :
    s.input t'' = lastInput rs ∧ s.output t'' = lastOutput rs := by
  rw [← h.input, ← h.output]
  have hin := h.inFile
  have hout := h.outFile
  unfold Stage.input Stage.output
  constructor
  · cases hrow : s.inFile with
    | none => rfl
    | some row => exact congrArg some (hkeep row (.inl (hin ▸ hrow)))
  · cases hrow : s.outFile with
    | none => rfl
    | some row =>
      show some (t''.names row, s.append) = some (t'.names row, s.append)
      rw [hkeep row (.inr (hout ▸ hrow))]

/-- The stages that a line is cut to are right about their own redirections, and
the table keeps what no stage writes to. -/
theorem parseStages_spec (pieces : List Str) : ∀ (n : Nat) (t t' : Table)
    (res : Option (List Stage)), parseStages n pieces t = (res, t') →
    (Within t.used (scanned n pieces) → ∀ row, Table.size ≤ row → t'.names row = t.names row) ∧
    (∀ row, Clear row t.used (scanned n pieces) → t'.names row = t.names row) ∧
    ∀ stages, res = some stages → Apart t.used (scanned n pieces) →
      List.Forall₂ (Right t') pieces stages := by
  induction pieces with
  | nil =>
    intro n t t' res h
    obtain ⟨rfl, rfl⟩ := Prod.mk.inj h
    exact ⟨fun _ _ _ => rfl, fun _ _ => rfl, fun stages hs _ => Option.some.inj hs ▸ .nil⟩
  | cons piece pieces ih =>
    intro n t t' res h
    unfold parseStages at h
    unfold scanned
    by_cases hn : n = maxStages
    · rw [if_pos hn] at h ⊢
      obtain ⟨rfl, rfl⟩ := Prod.mk.inj h
      exact ⟨fun _ _ _ => rfl, fun _ _ => rfl, fun _ hs => nomatch hs⟩
    rw [if_neg hn] at h ⊢
    rcases hred : t.redirections piece with ⟨r, t1⟩
    obtain ⟨hplaced, hr⟩ := redirections_placed hred
    rw [hred] at h
    rcases hw : writtenIn piece with ⟨rs, text⟩
    rw [hw] at hplaced hr
    dsimp only at hplaced
    have hused : t1.used = firstRow t.used + rs.length := hplaced.used
    -- a line that ends here with an error
    have hstop : ∀ t2 : Table, t2 = t1 →
        (Within t.used [rs] → ∀ row, Table.size ≤ row → t2.names row = t.names row) ∧
        ∀ row, Clear row t.used [rs] → t2.names row = t.names row := by
      rintro t2 rfl
      refine ⟨fun hwithin row hrow => hplaced.names_eq ?_, fun row hclear =>
        hplaced.names_eq hclear.1⟩
      have hle := hwithin.1
      omega
    cases text with
    | none =>
      subst hr
      obtain ⟨rfl, rfl⟩ := Prod.mk.inj h
      exact ⟨(hstop _ rfl).1, (hstop _ rfl).2, fun _ hs => nomatch hs⟩
    | some text =>
      subst hr
      dsimp only [Option.map_some] at h
      by_cases hblank : skip text = []
      · rw [if_pos hblank] at h
        dsimp only
        rw [if_pos hblank]
        obtain ⟨rfl, rfl⟩ := Prod.mk.inj h
        exact ⟨(hstop _ rfl).1, (hstop _ rfl).2, fun _ hs => nomatch hs⟩
      rw [if_neg hblank] at h
      dsimp only
      rw [if_neg hblank]
      rcases hrest : parseStages (n + 1) pieces t1 with ⟨res1, t2⟩
      obtain ⟨hwithin, hclear, hstages⟩ := ih (n + 1) t1 t2 res1 hrest
      rw [hused] at hwithin hclear hstages
      rw [hrest] at h
      have ht' : t' = t2 := by
        cases res1 with
        | none => exact (Prod.mk.inj h).2.symm
        | some stages => exact (Prod.mk.inj h).2.symm
      subst ht'
      refine ⟨fun hw row hrow => ?_, fun row hc => ?_, fun stages hs hapart => ?_⟩
      · have hle := hw.1
        exact (hwithin hw.2 row hrow).trans (hplaced.names_eq (by omega))
      · exact (hclear row hc.2).trans (hplaced.names_eq hc.1)
      · cases res1 with
        | none =>
          rw [← (Prod.mk.inj h).1] at hs
          cases hs
        | some rest =>
          rw [← (Prod.mk.inj h).1] at hs
          cases hs
          refine .cons ?_ (hstages rest rfl hapart.2)
          unfold Right
          rw [hw]
          exact hplaced.later fun row hrow => hclear row (hapart.1 row hrow)

/-- In a line whose redirections find rows in the table, nothing is written
outside of it; and if no stage writes over an earlier one's last names, each stage
is started with the last names of its own text. -/
theorem redirected {line : Str} {t t' : Table} {res : Option (List Stage)}
    (h : parseStages 0 (splitPipes false line) t = (res, t'))
    (hwithin : Within t.used (scanned 0 (splitPipes false line)))
    (hapart : res ≠ none → Apart t.used (scanned 0 (splitPipes false line))) :
    (∀ row, Table.size ≤ row → t'.names row = t.names row) ∧
      ∀ stages, res = some stages →
        List.Forall₂ (Right t') (splitPipes false line) stages := by
  obtain ⟨hnames, -, hstages⟩ := parseStages_spec _ 0 t t' res h
  refine ⟨hnames hwithin, fun stages hs => hstages stages hs (hapart ?_)⟩
  rw [hs]
  exact Option.some_ne_none stages

def noNames : Table := ⟨fun _ => [], 0⟩

/-- `X<A|Y>B`. -/
def twoStages : Str := ['X', '<', 'A', '|', 'Y', '>', 'B']

theorem redirected_two : List.Forall₂ (Right (parseStages 0 (splitPipes false twoStages) noNames).2)
      (splitPipes false twoStages)
      [⟨['X'], some 0, none, false⟩, ⟨['Y'], none, some 1, false⟩] := by
  have hwithin : Within 0 (scanned 0 (splitPipes false twoStages)) := by
    exact ⟨by decide, by decide, trivial⟩
  have hapart : Apart 0 (scanned 0 (splitPipes false twoStages)) := by
    refine ⟨fun row hrow => ?_, fun _ _ => trivial, trivial⟩
    rcases hrow with hrow | hrow
    · have hzero : row = 0 := (Option.some.inj hrow).symm
      subst hzero
      exact ⟨by decide, trivial⟩
    · cases hrow
  exact (redirected (t := noNames) rfl hwithin fun _ => hapart).2 _ rfl

/-- `X<a>b`. -/
def bothWays (a b : Char) : Str := ['X', '<', a, '>', b]

/-- Eight stages, each with both redirections. -/
def eightStages : Str :=
  bothWays 'a' 'b' ++ '|' :: bothWays 'c' 'd' ++ '|' :: bothWays 'e' 'f' ++
    '|' :: bothWays 'g' 'h' ++ '|' :: bothWays 'i' 'j' ++ '|' :: bothWays 'k' 'l' ++
    '|' :: bothWays 'm' 'n' ++ '|' :: bothWays 'o' 'p'

/-- After a line with one redirection, the output of the eighth stage is written
over the input of the first, which is started with it.  And the seventeenth
redirection of a stage is written past the table. -/
theorem written_over : (let t := (parseStages 0 (splitPipes false ['X', '<', 'z']) noNames).2
      let p := parseStages 0 (splitPipes false eightStages) t
      p.1.map (fun stages => stages.map fun s => s.input p.2) =
          some [some ['p'], some ['c'], some ['e'], some ['g'], some ['i'], some ['k'], some ['m'],
            some ['o']] ∧
        lastInput (writtenIn (bothWays 'a' 'b')).1 = some ['a']) ∧
    (let line := 'X' :: (List.replicate 17 ['>', 'q']).flatten
      let t := (parseStages 0 (splitPipes false line) noNames).2
      t.names Table.size = ['q']) := by
  refine ⟨⟨?_, ?_⟩, ?_⟩
  · decide +kernel
  · decide +kernel
  · decide +kernel

end ManiOS.Shell
