import ManiOS.Lib.Ring
import ManiOS.Lib.Runs
import Mathlib.Data.List.GetD

/-!
# The console's line editor and its poll

Typed bytes go from the keyboard interrupt to a ring.  `cons_read` takes the
reader lock and, when no finished line is left, edits one: it takes bytes from the
ring, sleeping while there are none, until a line or an end of file is complete.
`cons_poll` says from the shared variables whether a read would block.

A thread in `cons_read` is at one of the places of `Place`; between two of them
any other thread may run and any byte may arrive.  `typed` and `taken` record
every byte that the ring accepted and every byte that the editor went through.
Echoing is not modelled.

While no read is in progress the poll is right (`poll_right`).  A reader in the
middle of a line has `line_pos` 0 and `line_len` the length so far, and then the
poll says 1 while a read waits for the lock (`poll_half_line`).
-/

namespace ManiOS.Console

open Function (update)
open List

def lineMax : Nat := 256

def lf : UInt8 := 10
def cr : UInt8 := 13
def ctrlD : UInt8 := 4
def ctrlU : UInt8 := 21

abbrev Tid := Nat

/-- Where a thread is. -/
inductive Place
  /-- In no read; the bytes its last one gave. -/
  | out (bytes : List UInt8)
  /-- In `mutex_lock`. -/
  | lock (len : Nat)
  /-- Before the test of `line_pos`. -/
  | test (len : Nat)
  /-- At the start of `edit_line`. -/
  | clear (len : Nat)
  /-- In `raw_getc`. -/
  | getc (len : Nat)
  /-- With a byte from `raw_getc`. -/
  | got (len : Nat) (c : UInt8)
  /-- After `edit_line` said end of file. -/
  | eof
  /-- Before the copy. -/
  | copy (len : Nat)
  deriving DecidableEq

structure State where
  input : Lib.Ring UInt8
  line : Nat → UInt8
  lineLen : Nat
  linePos : Nat
  afterCr : Bool
  /-- The holder of `reader_lock`. -/
  owner : Option Tid
  place : Tid → Place
  typed : List UInt8
  taken : List UInt8

namespace State

def goto (t : Tid) (p : Place) (s : State) : State := { s with place := update s.place t p }

def consoleInput (c : UInt8) (s : State) : State :=
  { s with
    input := s.input.offer c
    typed := if s.input.held = s.input.size then s.typed else s.typed ++ [c] }

/-- `edit_line` on one byte: the place it goes to next. -/
def editByte (len : Nat) (c : UInt8) (s : State) : Place × State :=
  let s := { s with taken := s.taken ++ [c] }
  if c = lf ∧ s.afterCr then (.getc len, { s with afterCr := false })
  else
    let s := { s with afterCr := c == cr }
    if c = cr ∨ c = lf then
      (.copy len, { s with line := update s.line s.lineLen lf, lineLen := s.lineLen + 1 })
    else if c = ctrlD then (if 0 < s.lineLen then .copy len else .eof, s)
    else if c = 8 ∨ c = 0x7F then (.getc len, { s with lineLen := s.lineLen - 1 })
    else if c = ctrlU then (.getc len, { s with lineLen := 0 })
    -- one byte stays free for the newline
    else if 0x20 ≤ c ∧ c < 0x7F ∧ s.lineLen + 1 < lineMax then
      (.getc len, { s with line := update s.line s.lineLen c, lineLen := s.lineLen + 1 })
    else (.getc len, s)

/-- The bytes that the copy of `cons_read` hands out. -/
def handed (len : Nat) (s : State) : List UInt8 :=
  (List.range (min (s.lineLen - s.linePos) len)).map fun k => s.line (s.linePos + k)

/-- The next step of thread `t` in `cons_read`, or nothing while it sleeps. -/
def turn (t : Tid) (s : State) : Option State :=
  match s.place t with
  | .out _ => none
  | .lock len =>
    if s.owner = none then some (goto t (.test len) { s with owner := some t }) else none
  | .test len =>
    if s.linePos = s.lineLen then some (goto t (.clear len) { s with linePos := 0 })
    else some (goto t (.copy len) s)
  | .clear len => some (goto t (.getc len) { s with lineLen := 0 })
  | .getc len => s.input.pop.map fun p => goto t (.got len p.1) { s with input := p.2 }
  | .got len c => some (goto t (s.editByte len c).1 (s.editByte len c).2)
  | .eof => some (goto t (.out []) { s with lineLen := 0, owner := none })
  | .copy len =>
    some (goto t (.out (s.handed len))
      { s with linePos := s.linePos + (s.handed len).length, owner := none })

def consRead (t : Tid) (len : Nat) (s : State) : State :=
  if len = 0 then goto t (.out []) s else goto t (.lock len) s

/-- The scan of `cons_poll` over the bytes not edited. -/
def ends (afterCr : Bool) : List UInt8 → Bool
  | [] => false
  | c :: cs =>
    if c = lf ∧ afterCr then ends false cs
    else if c = cr ∨ c = lf ∨ c = ctrlD then true
    else ends false cs

def consPoll (s : State) : Bool :=
  s.linePos < s.lineLen || ends s.afterCr s.input.contents

end State

inductive Act
  | input (c : UInt8)
  | read (t : Tid) (len : Nat)
  | turn (t : Tid)

/-- The steps of the console and its readers. -/
def State.step (a : Act) (s : State) : Option State :=
  match a with
  | .input c => some (s.consoleInput c)
  | .read t len =>
    match s.place t with
    | .out _ => some (s.consRead t len)
    | _ => none
  | .turn t => s.turn t

def Next (a : Act) (s s' : State) : Prop := s.step a = some s'

def noInput : Lib.Ring UInt8 where
  buf := fun _ => 0
  size := 256
  head := 0
  tail := 0
  size_pos := by decide
  size_dvd := by decide
  size_lt := by decide
  head_lt := by decide
  tail_lt := by decide
  held_le := by decide

def booted : State where
  input := noInput
  line := fun _ => 0
  lineLen := 0
  linePos := 0
  afterCr := false
  owner := none
  place := fun _ => .out []
  typed := []
  taken := []

/-! ## The invariant -/

def Place.Inside : Place → Prop
  | .out _ | .lock _ => False
  | _ => True

def Place.Edits : Place → Prop
  | .clear _ | .getc _ | .got _ _ | .eof => True
  | _ => False

/-- The line has a place for one byte more. -/
def Place.Adds : Place → Prop
  | .getc _ | .got _ _ => True
  | _ => False

def Place.hand : Place → List UInt8
  | .got _ c => [c]
  | _ => []

/-- The byte in the hand of the lock's holder. -/
def State.hand (s : State) : List UInt8 :=
  match s.owner with
  | some t => (s.place t).hand
  | none => []

structure Inv (s : State) : Prop where
  owned : ∀ t, (s.place t).Inside → s.owner = some t
  inside : ∀ t, s.owner = some t → (s.place t).Inside
  pos_le : s.linePos ≤ s.lineLen
  edits : ∀ t, (s.place t).Edits → s.linePos = 0
  len_le : s.lineLen ≤ lineMax
  adds : ∀ t, (s.place t).Adds → s.lineLen < lineMax
  afterCr : s.afterCr = (s.taken.getLast? == some cr)
  typed : s.typed = s.taken ++ s.hand ++ s.input.contents

theorem inv_booted : Inv booted where
  owned := fun _ h => h.elim
  inside := fun _ h => nomatch h
  pos_le := le_rfl
  edits := fun _ h => h.elim
  len_le := Nat.zero_le _
  adds := fun _ h => h.elim
  afterCr := rfl
  typed := by decide

variable {s s' : State} {t : Tid} {len : Nat} {p : Place} {c : UInt8}

theorem place_goto (t u : Tid) (p : Place) (s : State) :
    (s.goto t p).place u = if u = t then p else s.place u := by
  by_cases h : u = t
  · subst h
    simp [State.goto]
  · simp [State.goto, h]

theorem Place.Edits.inside (h : p.Edits) : p.Inside := by
  cases p <;> first | exact h.elim | trivial

theorem Place.Adds.inside (h : p.Adds) : p.Inside := by
  cases p <;> first | exact h.elim | trivial

/-- The holder of the lock is the only thread inside. -/
theorem Inv.others (h : Inv s) (ht : s.owner = some t) (u : Tid) (hu : u ≠ t) :
    ¬ (s.place u).Inside := fun hin => hu (Option.some.inj ((h.owned u hin).symm.trans ht))

theorem Inv.nobody (h : Inv s) (hfree : s.owner = none) (u : Tid) : ¬ (s.place u).Inside :=
  fun hin => nomatch (h.owned u hin).symm.trans hfree

theorem inv_goto (hothers : ∀ u, u ≠ t → ¬ (s.place u).Inside)
    (howner : s.owner = some t) (hp : p.Inside) (hpos : s.linePos ≤ s.lineLen)
    (hedits : p.Edits → s.linePos = 0) (hlen : s.lineLen ≤ lineMax)
    (hadds : p.Adds → s.lineLen < lineMax) (hcr : s.afterCr = (s.taken.getLast? == some cr))
    (htyped : s.typed = s.taken ++ p.hand ++ s.input.contents) : Inv (s.goto t p) := by
  have hplace : ∀ u, ((s.goto t p).place u).Inside → u = t := by
    intro u hu
    by_contra hne
    rw [place_goto, if_neg hne] at hu
    exact hothers u hne hu
  have hself : (s.goto t p).place t = p := by rw [place_goto, if_pos rfl]
  refine ⟨fun u hu => ?_, fun u hu => ?_, hpos, fun u hu => ?_, hlen, fun u hu => ?_, hcr, ?_⟩
  · rw [hplace u hu]
    exact howner
  · rw [show u = t from Option.some.inj (hu.symm.trans howner), hself]
    exact hp
  · rw [hplace u hu.inside, hself] at hu
    exact hedits hu
  · rw [hplace u hu.inside, hself] at hu
    exact hadds hu
  · have hhand : (s.goto t p).hand = p.hand := by
      unfold State.hand
      rw [show (s.goto t p).owner = some t from howner]
      exact congrArg Place.hand hself
    rw [hhand]
    exact htyped

theorem inv_leave (hothers : ∀ u, u ≠ t → ¬ (s.place u).Inside)
    (howner : s.owner = none) (hp : ¬ p.Inside) (hpos : s.linePos ≤ s.lineLen)
    (hlen : s.lineLen ≤ lineMax) (hcr : s.afterCr = (s.taken.getLast? == some cr))
    (htyped : s.typed = s.taken ++ s.input.contents) : Inv (s.goto t p) := by
  have hplace : ∀ u, ¬ ((s.goto t p).place u).Inside := by
    intro u hu
    rw [place_goto] at hu
    split_ifs at hu with hut
    · exact hp hu
    · exact hothers u hut hu
  refine ⟨fun u hu => absurd hu (hplace u), fun u hu => ?_, hpos,
    fun u hu => absurd hu.inside (hplace u), hlen, fun u hu => absurd hu.inside (hplace u), hcr, ?_⟩
  · exact nomatch hu.symm.trans howner
  · have hhand : (s.goto t p).hand = [] := by
      unfold State.hand
      rw [show (s.goto t p).owner = none from howner]
    rw [hhand, append_nil]
    exact htyped

/-! ## Steps keep the invariant -/

theorem Inv.withInput (h : Inv s) (input : Lib.Ring UInt8) (typed : List UInt8)
    (htyped : typed = s.taken ++ s.hand ++ input.contents) :
    Inv { s with input := input, typed := typed } :=
  { h with typed := htyped }

theorem Inv.consoleInput (h : Inv s) (c : UInt8) : Inv (s.consoleInput c) := by
  refine h.withInput _ _ ?_
  split_ifs with hfull
  · rw [Lib.Ring.offer_of_full c hfull]
    exact h.typed
  · rw [Lib.Ring.contents_offer c hfull, ← append_assoc, ← h.typed]

theorem Inv.goto (h : Inv s) (ht : ¬ (s.place t).Inside) (hp : ¬ p.Inside) : Inv (s.goto t p) := by
  have hplace : ∀ u, ((s.goto t p).place u).Inside → (s.goto t p).place u = s.place u := by
    intro u hu
    rw [place_goto] at hu ⊢
    split_ifs at hu ⊢ with hut
    · exact absurd hu hp
    · rfl
  refine ⟨fun u hu => ?_, fun u hu => ?_, h.pos_le, fun u hu => ?_, h.len_le, fun u hu => ?_,
    h.afterCr, ?_⟩
  · exact h.owned u (hplace u hu ▸ hu)
  · have hut : u ≠ t := fun hut => ht (hut ▸ h.inside u hu)
    rw [place_goto, if_neg hut]
    exact h.inside u hu
  · exact h.edits u (hplace u hu.inside ▸ hu)
  · exact h.adds u (hplace u hu.inside ▸ hu)
  · have hhand : (s.goto t p).hand = s.hand := by
      unfold State.hand
      show (match s.owner with | some u => ((s.goto t p).place u).hand | none => []) = _
      cases howner : s.owner with
      | none => rfl
      | some u =>
        have hut : u ≠ t := fun hut => ht (hut ▸ h.inside u howner)
        show ((s.goto t p).place u).hand = (s.place u).hand
        rw [place_goto, if_neg hut]
    rw [hhand]
    exact h.typed

theorem Inv.consRead (h : Inv s) (len : Nat) (ht : ¬ (s.place t).Inside) :
    Inv (s.consRead t len) := by
  unfold State.consRead
  split_ifs
  · exact h.goto ht id
  · exact h.goto ht id

/-- What `edit_line` does with a byte. -/
structure Edited (len : Nat) (c : UInt8) (s s' : State) (p : Place) : Prop where
  input : s'.input = s.input
  linePos : s'.linePos = s.linePos
  owner : s'.owner = s.owner
  place : s'.place = s.place
  typed : s'.typed = s.typed
  taken : s'.taken = s.taken ++ [c]
  afterCr : s'.afterCr = (c == cr)
  len_le : s.lineLen < lineMax → s'.lineLen ≤ lineMax
  goes : p = .getc len ∧ (s.lineLen < lineMax → s'.lineLen < lineMax) ∨
    p = .copy len ∧ 0 < s'.lineLen ∨ p = .eof

theorem editByte_edited (len : Nat) (c : UInt8) (s : State) :
    Edited len c s (s.editByte len c).2 (s.editByte len c).1 := by
  unfold State.editByte
  dsimp only
  split_ifs with hswallow hend hd hlen hback hu hplain
  · refine ⟨rfl, rfl, rfl, rfl, rfl, rfl, ?_, le_of_lt, .inl ⟨rfl, id⟩⟩
    rw [hswallow.1]
    rfl
  · exact ⟨rfl, rfl, rfl, rfl, rfl, rfl, rfl, id, .inr (.inl ⟨rfl, Nat.succ_pos _⟩)⟩
  · exact ⟨rfl, rfl, rfl, rfl, rfl, rfl, rfl, le_of_lt, .inr (.inl ⟨rfl, hlen⟩)⟩
  · exact ⟨rfl, rfl, rfl, rfl, rfl, rfl, rfl, le_of_lt, .inr (.inr rfl)⟩
  · refine ⟨rfl, rfl, rfl, rfl, rfl, rfl, rfl, fun h => ?_, .inl ⟨rfl, fun h => ?_⟩⟩
    · exact (Nat.sub_le _ _).trans (le_of_lt h)
    · exact lt_of_le_of_lt (Nat.sub_le _ _) h
  · exact ⟨rfl, rfl, rfl, rfl, rfl, rfl, rfl, fun _ => Nat.zero_le _,
      .inl ⟨rfl, fun _ => (by decide : 0 < lineMax)⟩⟩
  · exact ⟨rfl, rfl, rfl, rfl, rfl, rfl, rfl, id, .inl ⟨rfl, fun _ => hplain.2.2⟩⟩
  · exact ⟨rfl, rfl, rfl, rfl, rfl, rfl, rfl, le_of_lt, .inl ⟨rfl, id⟩⟩

variable (h : Inv s)
include h

theorem Inv.at_place (hplace : s.place t = p) (hp : p.Inside) :
    s.owner = some t ∧ s.typed = s.taken ++ p.hand ++ s.input.contents := by
  have howner : s.owner = some t := h.owned t (hplace ▸ hp)
  refine ⟨howner, ?_⟩
  have htyped := h.typed
  unfold State.hand at htyped
  rw [howner] at htyped
  rw [htyped, ← hplace]

theorem Inv.turn_lock (hfree : s.owner = none) :
    Inv (State.goto t (.test len) { s with owner := some t }) := by
  have htyped := h.typed
  unfold State.hand at htyped
  rw [hfree] at htyped
  exact inv_goto (fun u _ => h.nobody hfree u) rfl trivial h.pos_le False.elim h.len_le
    False.elim h.afterCr htyped

theorem Inv.turn_test (hplace : s.place t = .test len) :
    Inv (State.goto t (.clear len) { s with linePos := 0 }) ∧ Inv (s.goto t (.copy len)) := by
  obtain ⟨howner, htyped⟩ := h.at_place hplace trivial
  constructor
  · exact inv_goto (h.others howner) howner trivial (Nat.zero_le _) (fun _ => rfl) h.len_le
      False.elim h.afterCr htyped
  · exact inv_goto (h.others howner) howner trivial h.pos_le False.elim h.len_le False.elim
      h.afterCr htyped

theorem Inv.turn_clear (hplace : s.place t = .clear len) :
    Inv (State.goto t (.getc len) { s with lineLen := 0 }) := by
  obtain ⟨howner, htyped⟩ := h.at_place hplace trivial
  have hpos : s.linePos = 0 := h.edits t (by rw [hplace]; trivial)
  exact inv_goto (h.others howner) howner trivial (le_of_eq hpos) (fun _ => hpos)
    (Nat.zero_le _) (fun _ => (by decide : 0 < lineMax)) h.afterCr htyped

theorem Inv.turn_getc {input : Lib.Ring UInt8}
    (hplace : s.place t = .getc len) (hpop : s.input.pop = some (c, input)) :
    Inv (State.goto t (.got len c) { s with input := input }) := by
  obtain ⟨howner, htyped⟩ := h.at_place hplace trivial
  have hpos : s.linePos = 0 := h.edits t (by rw [hplace]; trivial)
  have hadds : s.lineLen < lineMax := h.adds t (by rw [hplace]; trivial)
  refine inv_goto (h.others howner) howner trivial h.pos_le (fun _ => hpos) h.len_le
    (fun _ => hadds) h.afterCr ?_
  rw [Lib.Ring.contents_of_pop hpop] at htyped
  show s.typed = s.taken ++ [c] ++ input.contents
  rw [htyped, show Place.hand (.getc len) = [] from rfl, append_nil, append_assoc, singleton_append]

theorem Inv.turn_got (hplace : s.place t = .got len c) :
    Inv (State.goto t (s.editByte len c).1 (s.editByte len c).2) := by
  obtain ⟨howner, htyped⟩ := h.at_place hplace trivial
  have hpos : s.linePos = 0 := h.edits t (by rw [hplace]; trivial)
  have hadds : s.lineLen < lineMax := h.adds t (by rw [hplace]; trivial)
  have hed := editByte_edited len c s
  generalize (s.editByte len c).1 = p at hed ⊢
  have hhand : p.hand = [] ∧ p.Inside := by
    rcases hed.goes with ⟨rfl, -⟩ | ⟨rfl, -⟩ | rfl <;> exact ⟨rfl, trivial⟩
  refine inv_goto (fun u hu => hed.place ▸ h.others howner u hu) (hed.owner.trans howner)
    hhand.2 ?_ (fun _ => hed.linePos.trans hpos) (hed.len_le hadds) (fun hp => ?_) ?_ ?_
  · rw [hed.linePos, hpos]
    exact Nat.zero_le _
  · rcases hed.goes with ⟨-, hlt⟩ | ⟨rfl, -⟩ | rfl
    · exact hlt hadds
    · exact hp.elim
    · exact hp.elim
  · rw [hed.afterCr, hed.taken, getLast?_concat]
    rfl
  · rw [hed.typed, hed.taken, hed.input, hhand.1, append_nil]
    exact htyped

theorem Inv.turn_eof (hplace : s.place t = .eof) :
    Inv (State.goto t (.out []) { s with lineLen := 0, owner := none }) := by
  obtain ⟨howner, htyped⟩ := h.at_place hplace trivial
  have hpos : s.linePos = 0 := h.edits t (by rw [hplace]; trivial)
  rw [show Place.hand .eof = [] from rfl, append_nil] at htyped
  exact inv_leave (h.others howner) rfl id (le_of_eq hpos) (Nat.zero_le _) h.afterCr htyped

omit h

theorem handed_length (len : Nat) (s : State) :
    (s.handed len).length = min (s.lineLen - s.linePos) len := by
  rw [State.handed, length_map, length_range]

theorem Inv.turn_copy (h : Inv s) (hplace : s.place t = .copy len) :
    Inv (State.goto t (.out (s.handed len))
      { s with linePos := s.linePos + (s.handed len).length, owner := none }) := by
  obtain ⟨howner, htyped⟩ := h.at_place hplace trivial
  have hle := h.pos_le
  rw [show Place.hand (.copy len) = [] from rfl, append_nil] at htyped
  have hlen : s.linePos + (s.handed len).length ≤ s.lineLen := by
    rw [handed_length]
    omega
  exact inv_leave (h.others howner) rfl id hlen h.len_le h.afterCr htyped

theorem Inv.turn (h : Inv s) (hs : s.turn t = some s') : Inv s' := by
  unfold State.turn at hs
  split at hs
  · cases hs
  · next len hplace =>
    split_ifs at hs with hfree
    cases hs
    exact h.turn_lock hfree
  · next len hplace =>
    split_ifs at hs
    · cases hs
      exact (h.turn_test hplace).1
    · cases hs
      exact (h.turn_test hplace).2
  · next len hplace =>
    cases hs
    exact h.turn_clear hplace
  · next len hplace =>
    obtain ⟨⟨c, input⟩, hpop, hs⟩ := Option.map_eq_some_iff.mp hs
    cases hs
    exact h.turn_getc hplace hpop
  · next len c hplace =>
    cases hs
    exact h.turn_got hplace
  · next hplace =>
    cases hs
    exact h.turn_eof hplace
  · next len hplace =>
    cases hs
    exact h.turn_copy hplace

theorem Inv.step {a : Act} (h : Inv s) (hs : s.step a = some s') : Inv s' := by
  cases a with
  | input c =>
    cases hs
    exact h.consoleInput c
  | read t len =>
    simp only [State.step] at hs
    split at hs
    · next bytes hplace =>
      cases hs
      exact h.consRead len (by rw [hplace]; exact id)
    · cases hs
  | turn t => exact h.turn hs

theorem inv_of_reached (h : Lib.Reached Next booted s) : Inv s :=
  h.invariant inv_booted fun _ _ _ hi hs => hi.step hs

/-! ## A read that does not block -/

/-- Running alone, and without sleeping, `t` comes out of its read. -/
inductive Returns (t : Tid) : State → Prop
  | out {s : State} {bytes : List UInt8} (h : s.place t = .out bytes) : Returns t s
  | turn {s s' : State} (h : s.turn t = some s') (hrest : Returns t s') : Returns t s

theorem place_goto_self (t : Tid) (p : Place) (s : State) : (s.goto t p).place t = p :=
  (place_goto t t p s).trans (if_pos rfl)

theorem turn_lock (h : s.place t = .lock len) (hfree : s.owner = none) :
    s.turn t = some (State.goto t (.test len) { s with owner := some t }) := by
  unfold State.turn
  rw [h]
  exact if_pos hfree

theorem turn_test_eq (h : s.place t = .test len) (heq : s.linePos = s.lineLen) :
    s.turn t = some (State.goto t (.clear len) { s with linePos := 0 }) := by
  unfold State.turn
  rw [h]
  exact if_pos heq

theorem turn_test_ne (h : s.place t = .test len) (hne : s.linePos ≠ s.lineLen) :
    s.turn t = some (s.goto t (.copy len)) := by
  unfold State.turn
  rw [h]
  exact if_neg hne

theorem turn_clear (h : s.place t = .clear len) :
    s.turn t = some (State.goto t (.getc len) { s with lineLen := 0 }) := by
  unfold State.turn
  rw [h]

theorem turn_getc {input : Lib.Ring UInt8} (h : s.place t = .getc len)
    (hpop : s.input.pop = some (c, input)) :
    s.turn t = some (State.goto t (.got len c) { s with input := input }) := by
  unfold State.turn
  rw [h, hpop]
  rfl

theorem turn_got (h : s.place t = .got len c) :
    s.turn t = some (State.goto t (s.editByte len c).1 (s.editByte len c).2) := by
  unfold State.turn
  rw [h]

theorem turn_eof (h : s.place t = .eof) :
    s.turn t = some (State.goto t (.out []) { s with lineLen := 0, owner := none }) := by
  unfold State.turn
  rw [h]

theorem turn_copy (h : s.place t = .copy len) : s.turn t = some (State.goto t (.out (s.handed len))
      { s with linePos := s.linePos + (s.handed len).length, owner := none }) := by
  unfold State.turn
  rw [h]

theorem returns_copy (h : s.place t = .copy len) : Returns t s :=
  .turn (turn_copy h) (.out (place_goto_self t _ _))

theorem returns_eof (h : s.place t = .eof) : Returns t s :=
  .turn (turn_eof h) (.out (place_goto_self t _ _))

/-- A byte after which the editor goes on does not end the scan of the poll. -/
theorem ends_of_getc {cs : List UInt8} (h : (s.editByte len c).1 = .getc len)
    (hends : State.ends s.afterCr (c :: cs) = true) : State.ends (c == cr) cs = true := by
  unfold State.editByte at h
  unfold State.ends at hends
  dsimp only at h
  split_ifs at h with hswallow hend hd hlen hback hu hplain
  · rw [if_pos hswallow] at hends
    rw [hswallow.1]
    exact hends
  all_goals
    rw [if_neg hswallow, if_neg (by tauto)] at hends
    rw [show (c == cr) = false from beq_eq_false_iff_ne.mpr fun hc => hend (.inl hc)]
    exact hends

/-- Once the input holds the end of a line the editor comes to it. -/
theorem returns_getc (cs : List UInt8) : ∀ s : State, s.place t = .getc len →
    s.input.contents = cs → State.ends s.afterCr cs = true → Returns t s := by
  induction cs with
  | nil =>
    intro s _ _ hends
    cases hends
  | cons c cs ih =>
    intro s hplace hcontents hends
    have hpop : ∃ p, s.input.pop = some p := by
      rw [← Option.ne_none_iff_exists']
      intro hnone
      rw [Lib.Ring.pop_eq_none.mp hnone] at hcontents
      cases hcontents
    obtain ⟨⟨c', input⟩, hpop⟩ := hpop
    have hold := Lib.Ring.contents_of_pop hpop
    rw [hcontents] at hold
    obtain ⟨rfl, hcs⟩ := cons.inj hold
    refine .turn (turn_getc hplace hpop) ?_
    generalize hs1 : State.goto t (.got len c) { s with input := input } = s1
    have hplace₁ : s1.place t = .got len c := hs1 ▸ place_goto_self t _ _
    have hcr1 : s1.afterCr = s.afterCr := by
      rw [← hs1]
      rfl
    have hinput₁ : s1.input = input := by
      rw [← hs1]
      rfl
    refine .turn (turn_got hplace₁) ?_
    have hed := editByte_edited len c s1
    rcases hed.goes with ⟨hp, -⟩ | ⟨hp, -⟩ | hp
    · refine ih _ ?_ ?_ ?_
      · exact (place_goto_self t _ _).trans hp
      · show (s1.editByte len c).2.input.contents = cs
        rw [hed.input, hinput₁, hcs]
      · show State.ends (s1.editByte len c).2.afterCr cs = true
        rw [hed.afterCr]
        exact ends_of_getc hp (hcr1 ▸ hends)
    · exact returns_copy ((place_goto_self t _ _).trans hp)
    · exact returns_eof ((place_goto_self t _ _).trans hp)

theorem returns_test (hplace : s.place t = .test len) (hpoll : s.consPoll = true) :
    Returns t s := by
  by_cases heq : s.linePos = s.lineLen
  · refine .turn (turn_test_eq hplace heq) (.turn (turn_clear (place_goto_self t _ _)) ?_)
    refine returns_getc s.input.contents _ (place_goto_self t _ _) rfl ?_
    show State.ends s.afterCr s.input.contents = true
    rw [State.consPoll, heq] at hpoll
    simpa using hpoll
  · exact .turn (turn_test_ne hplace heq) (returns_copy (place_goto_self t _ _))

/-- With the lock free and the poll at 1, a read comes out. -/
theorem returns_of_poll (hfree : s.owner = none) (len : Nat) (hpoll : s.consPoll = true) :
    Returns t (s.consRead t len) := by
  unfold State.consRead
  split_ifs
  · exact .out (place_goto_self t _ _)
  · refine .turn (turn_lock (place_goto_self t _ _) hfree) ?_
    exact returns_test (place_goto_self t _ _) hpoll

/-! ## Complete lines -/

/-- Byte `i` of what was typed ends a line, or is an end of file: `^D`, Enter, or
a newline that does not come with the carriage return before it. -/
def EndsAt (typed : List UInt8) (i : Nat) : Prop :=
  typed[i]? = some ctrlD ∨ typed[i]? = some cr ∨
    typed[i]? = some lf ∧ ∀ j, j + 1 = i → typed[j]? ≠ some cr

/-- A line or an end of file is complete and not yet read. -/
def Complete (s : State) : Prop :=
  s.linePos < s.lineLen ∨ ∃ i, s.taken.length ≤ i ∧ EndsAt s.typed i

theorem endsAt_next {taken cs : List UInt8} (h : EndsAt (taken ++ c :: cs) taken.length) :
    c = ctrlD ∨ c = cr ∨ c = lf ∧ taken.getLast? ≠ some cr := by
  have hat : (taken ++ c :: cs)[taken.length]? = some c := by
    rw [getElem?_append_right le_rfl, Nat.sub_self, getElem?_cons_zero]
  unfold EndsAt at h
  rw [hat] at h
  rcases h with h | h | ⟨h, hbefore⟩
  · exact .inl (Option.some.inj h)
  · exact .inr (.inl (Option.some.inj h))
  · refine .inr (.inr ⟨Option.some.inj h, fun hlast => ?_⟩)
    rw [getLast?_eq_getElem?] at hlast
    have hpos : taken.length - 1 < taken.length := by
      by_contra hnot
      rw [getElem?_eq_none (by omega)] at hlast
      cases hlast
    refine hbefore (taken.length - 1) (by omega) ?_
    rw [getElem?_append_left hpos]
    exact hlast

theorem ends_of_endsAt (cs : List UInt8) : ∀ (taken : List UInt8) (i : Nat), taken.length ≤ i →
    EndsAt (taken ++ cs) i → State.ends (taken.getLast? == some cr) cs = true := by
  induction cs with
  | nil =>
    intro taken i hi hend
    have hnone : (taken ++ [])[i]? = none := by
      rw [append_nil]
      exact getElem?_eq_none hi
    rcases hend with h | h | ⟨h, -⟩
    all_goals exact nomatch h.symm.trans hnone
  | cons c cs ih =>
    intro taken i hi hend
    -- unless the scan stops here, the end comes later
    have hlater : c ≠ cr → taken.length ≠ i → State.ends false cs = true := by
      intro hc hne
      have hrest := ih (taken ++ [c]) i (by rw [length_append, length_singleton]; omega)
        (by rw [append_assoc]; exact hend)
      rw [getLast?_concat] at hrest
      rwa [show (some c == some cr) = false from beq_eq_false_iff_ne.mpr
        fun h => hc (Option.some.inj h)] at hrest
    unfold State.ends
    split_ifs with hswallow hstop
    · obtain ⟨rfl, hlast⟩ := hswallow
      refine hlater (by decide) fun hlen => ?_
      rcases endsAt_next (hlen ▸ hend) with h | h | ⟨-, h⟩
      · exact absurd h (by decide)
      · exact absurd h (by decide)
      · exact h (eq_of_beq hlast)
    · rfl
    · refine hlater (fun hc => hstop (.inl hc)) fun hlen => ?_
      rcases endsAt_next (hlen ▸ hend) with h | h | ⟨h, -⟩
      · exact hstop (.inr (.inr h))
      · exact hstop (.inl h)
      · exact hstop (.inr (.inl h))

theorem poll_of_complete (h : Inv s) (hfree : s.owner = none) (hc : Complete s) :
    s.consPoll = true := by
  unfold State.consPoll
  rcases hc with hlt | ⟨i, hi, hend⟩
  · rw [decide_eq_true hlt]
    rfl
  · have htyped := h.typed
    unfold State.hand at htyped
    rw [hfree] at htyped
    rw [append_nil] at htyped
    rw [h.afterCr, ends_of_endsAt s.input.contents s.taken i hi (htyped ▸ hend), Bool.or_true]

/-! ## The poll -/

def Quiet (s : State) : Prop := ∀ t, ∃ bytes, s.place t = .out bytes

theorem Quiet.free (hq : Quiet s) (h : Inv s) : s.owner = none := by
  cases howner : s.owner with
  | none => rfl
  | some t =>
    obtain ⟨bytes, hplace⟩ := hq t
    have hin := h.inside t howner
    rw [hplace] at hin
    exact hin.elim

/-- While no read is in progress, a poll at 1 means that a read returns without
sleeping, and the poll is at 1 whenever a line or an end of file is complete. -/
theorem poll_right (h : Lib.Reached Next booted s) (hq : Quiet s) :
    (s.consPoll = true → ∀ t len, Returns t (s.consRead t len)) ∧
      (Complete s → s.consPoll = true) := by
  have hinv := inv_of_reached h
  have hfree := hq.free hinv
  exact ⟨fun hpoll t len => returns_of_poll hfree len hpoll, poll_of_complete hinv hfree⟩

/-- A line is typed, with its newline. -/
theorem poll_right_line : ∃ s, Lib.Reached Next booted s ∧ Quiet s ∧ s.consPoll = true ∧
      Returns 7 (s.consRead 7 100) := by
  have h1 : Lib.Reached Next booted (booted.consoleInput 97) := .step (.input 97) .start rfl
  have h2 : Lib.Reached Next booted ((booted.consoleInput 97).consoleInput 13) :=
    .step (.input 13) h1 rfl
  have hq : Quiet ((booted.consoleInput 97).consoleInput 13) := fun _ => ⟨[], rfl⟩
  have hpoll : ((booted.consoleInput 97).consoleInput 13).consPoll = true := by
    decide +kernel
  exact ⟨_, h2, hq, hpoll, (poll_right h2 hq).1 hpoll 7 100⟩

/-- Thread 1 is in the middle of a line, and sleeps for its next byte.  The poll
of thread 2 says 1, and its read sleeps for the lock. -/
theorem poll_half_line : ∃ s, Lib.Reached Next booted s ∧ s.place 2 = .out [] ∧ s.consPoll = true ∧
      s.turn 1 = none ∧ ¬ Returns 2 (s.consRead 2 100) := by
  have hrun : (Lib.follow (fun a s => s.step a)
      [.input 97, .read 1 100, .turn 1, .turn 1, .turn 1, .turn 1, .turn 1] booted).map
      (fun s => (s.place 2, s.consPoll, (s.turn 1).isNone, s.owner))
        = some (.out [], true, true, some 1) := by
    decide +kernel
  obtain ⟨s, hs, hat⟩ := Option.map_eq_some_iff.mp hrun
  have hreached : Lib.Reached Next booted s := .follow (fun _ _ _ hs => hs) .start hs
  simp only [Prod.mk.injEq] at hat
  obtain ⟨hplace, hpoll, hturn, howner⟩ := hat
  refine ⟨s, hreached, hplace, hpoll, Option.isNone_iff_eq_none.mp hturn, fun hreturns => ?_⟩
  have hread : s.consRead 2 100 = s.goto 2 (.lock 100) := rfl
  rw [hread] at hreturns
  have hlock : (s.goto 2 (.lock 100)).place 2 = .lock 100 := place_goto_self 2 _ _
  cases hreturns with
  | out h => exact nomatch hlock.symm.trans h
  | turn h _ =>
    unfold State.turn at h
    rw [hlock] at h
    dsimp only at h
    rw [if_neg (by rw [show (s.goto 2 (.lock 100)).owner = s.owner from rfl, howner]; simp)] at h
    cases h

end ManiOS.Console
