import ManiOS.Shell.Fuel

/-!
# Chains of batch files

A batch file that starts another without `CALL` is replaced by it.  `run_batch` marks
the first one done and runs the second one on top of it, so the files of a chain pile
up on the stack: the chain runs to its end if there is room for all its files
(`chain_runs`), and stops at the ninth from the prompt (`ninth_not_run`).

`Chain` follows the interpreter: each file runs its lines up to one that starts the
next file, and the last one runs to its end.
-/

namespace ManiOS.Shell

open Lib (Agrees)
open List
open Session (marked withTop)

variable {W : Type} {host : Host W} {st : Session Unit} {path : Str} {call : Bool}

/-! ## The lines of a batch file -/

/-- The next line of the batch file that runs, and the state in which it is run;
nothing when the file ends. -/
def Session.fetch (st : Session W) : Option (Str × Session W) :=
  match st.stack with
  | [] => none
  | b :: _ =>
    if b.next < b.lines.length && !b.done && !st.outer.leaving then
      some (skip (b.lines.getD b.next []), st.withTop fun b => { b with next := b.next + 1 })
    else none

/-- A label, or nothing. -/
def isLabel : Str → Bool
  | [] => true
  | ':' :: _ => true
  | _ => false

section

variable {run : Runner W} {fuel : Nat} {st st' : Session W} {p : Str}

theorem batchLoop_end (hstack : st.stack ≠ []) (h : st.fetch = none) :
    batchLoop run (fuel + 1) st = some st := by
  unfold Session.fetch at h
  unfold batchLoop
  split
  · next hnil => exact absurd hnil hstack
  · next b rest hcons =>
    rw [hcons] at h
    dsimp only at h
    split_ifs at h with hgo
    rw [if_neg hgo]

theorem batchLoop_fetch (h : st.fetch = some (p, st')) : batchLoop run (fuel + 1) st =
    if isLabel p then batchLoop run fuel st'
    else (run p st').bind fun r => batchLoop run fuel r.2 := by
  unfold Session.fetch at h
  rw [batchLoop]
  split
  · next hnil =>
    rw [hnil] at h
    cases h
  · next b rest hcons =>
    rw [hcons] at h
    dsimp only at h
    split_ifs at h with hgo
    cases h
    rw [if_pos hgo]
    dsimp only
    generalize skip (b.lines.getD b.next []) = q
    unfold isLabel
    split <;> simp_all

theorem fetch_opened (st : Session W) (path : Str) (argv : List Str) (line : Str)
    (h : st.outer.leaving = false) : (st.opened path argv [line]).fetch = some (skip line,
      (st.opened path argv [line]).withTop fun b => { b with next := b.next + 1 }) := by
  show (if (true && !st.outer.leaving) = true then some _ else none) = _
  rw [h]
  rfl

theorem fetch_frame (h : st.fetch = some (p, st')) : Frame st st' := by
  unfold Session.fetch at h
  split at h
  · cases h
  · split_ifs at h
    cases h
    exact .withTop st _

end

/-- The batch file on top runs some of its lines. -/
inductive Steps (host : Host W) : Session W → Session W → Prop
  | here (st : Session W) : Steps host st st
  | label {st st₁ st' : Session W} {p : Str} : st.fetch = some (p, st₁) → isLabel p = true →
      Steps host st₁ st' → Steps host st st'
  | line {st st₁ st' : Session W} {p : Str} {fuel : Nat} {r : Int × Session W} :
      st.fetch = some (p, st₁) → isLabel p = false → runLine host fuel p st₁ = some r →
      Steps host r.2 st' → Steps host st st'

/-- The loop of `run_batch` ends in `s`, given enough fuel. -/
def LoopEnds (host : Host W) (st s : Session W) : Prop :=
  ∃ n, ∀ m ≥ n, ∀ fuel ≥ n, batchLoop (runLine host m) fuel st = some s

variable {paths argv : List Str} {s : Session W}

theorem LoopEnds.frame {st : Session W} (h : LoopEnds host st s) : Frame st s := by
  obtain ⟨n, hn⟩ := h
  have hloop := hn n (Nat.le_refl n) n (Nat.le_refl n)
  exact (batchLoop_agrees (runLine_agrees (Nat.le_refl n)) (Nat.le_refl n) st s hloop).2

theorem LoopEnds.of_end {st : Session W} (hstack : st.stack ≠ []) (h : st.fetch = none) :
    LoopEnds host st st := by
  refine ⟨1, fun m _ fuel hfuel => ?_⟩
  obtain ⟨k, rfl⟩ : ∃ k, fuel = k + 1 := ⟨fuel - 1, by omega⟩
  exact batchLoop_end hstack h

theorem LoopEnds.of_label {st st₁ : Session W} {p : Str} (h : st.fetch = some (p, st₁))
    (hp : isLabel p = true) (hends : LoopEnds host st₁ s) : LoopEnds host st s := by
  obtain ⟨n, hn⟩ := hends
  refine ⟨n + 1, fun m hm fuel hfuel => ?_⟩
  obtain ⟨k, rfl⟩ : ∃ k, fuel = k + 1 := ⟨fuel - 1, by omega⟩
  rw [batchLoop_fetch h, if_pos hp]
  exact hn m (by omega) k (by omega)

theorem LoopEnds.of_line {st st₁ : Session W} {p : Str} {r : Int × Session W} {n : Nat}
    (h : st.fetch = some (p, st₁)) (hp : isLabel p = false)
    (hrun : ∀ fuel ≥ n, runLine host fuel p st₁ = some r) (hends : LoopEnds host r.2 s) :
    LoopEnds host st s := by
  obtain ⟨n', hn'⟩ := hends
  refine ⟨n + n' + 1, fun m hm fuel hfuel => ?_⟩
  obtain ⟨k, rfl⟩ : ∃ k, fuel = k + 1 := ⟨fuel - 1, by omega⟩
  rw [batchLoop_fetch h, hp, if_neg Bool.false_ne_true, hrun m (by omega)]
  exact hn' m (by omega) k (by omega)

theorem Steps.loopEnds {st st' : Session W} (h : Steps host st st')
    (hends : LoopEnds host st' s) : LoopEnds host st s := by
  induction h with
  | here st => exact hends
  | label hfetch hp _ ih => exact (ih hends).of_label hfetch hp
  | line hfetch hp hrun _ ih =>
    exact .of_line hfetch hp (fun _ hle => (runLine_agrees hle _ _ _ hrun).1) (ih hends)

theorem Steps.frame {st st' : Session W} (h : Steps host st st') : Frame st st' := by
  induction h with
  | here st => exact .refl st
  | label hfetch _ _ ih => exact (fetch_frame hfetch).trans ih
  | line hfetch _ hrun _ ih =>
    have hline := (runLine_agrees (Nat.le_refl _) _ _ _ hrun).2
    exact ((fetch_frame hfetch).trans hline).trans ih

/-! ## Chains -/

/-- Running the line comes down to starting the batch file `path`, with `CALL` or
without, in `st'`. -/
structure Starts (host : Host W) (line : Str) (st : Session W) (path : Str) (argv : List Str)
    (call : Bool) (st' : Session W) : Prop where
  stack : st'.stack = st.stack
  started : st'.started = st.started
  runs : ∃ (k : Nat) (post : Int × Session W → Int × Session W),
    (∀ r, (post r).2.stack = r.2.stack ∧ (post r).2.started = r.2.started) ∧
    ∀ fuel, runLine host (fuel + k) line st =
      (runBatch host (runLine host fuel) fuel path argv call st').map post

/-- The batch file `path`, started in `st`, goes through the files `paths`: each runs
its lines up to one that starts the next file without `CALL`, and the last one runs to
its end. -/
inductive Chain (host : Host W) : Str → List Str → Bool → Session W → List Str → Prop
  | last {path : Str} {argv lines : List Str} {call : Bool} {st st' : Session W} :
      host.load path (st.marked call).outer.world = some lines →
      Steps host ((st.marked call).opened path argv lines) st' → st'.fetch = none →
      Chain host path argv call st [path]
  | next {path path' p : Str} {argv argv' lines paths : List Str} {call : Bool}
      {st st₁ st2 st3 : Session W} :
      host.load path (st.marked call).outer.world = some lines →
      Steps host ((st.marked call).opened path argv lines) st₁ →
      st₁.fetch = some (p, st2) → isLabel p = false → Starts host p st2 path' argv' false st3 →
      Chain host path' argv' false st3 paths → Chain host path argv call st (path :: paths)

/-- `run_batch` returns, given enough fuel: the files below are as it left them when it
started the file, and the log has the files `paths` in order. -/
structure Ends (host : Host W) (path : Str) (argv : List Str) (call : Bool) (st : Session W)
    (paths : List Str) (r : Int × Session W) : Prop where
  runs : ∃ n, ∀ fuel ≥ n, runBatch host (runLine host fuel) fuel path argv call st = some r
  stack : r.2.stack = (st.marked call).stack
  started : ∃ l, r.2.started = st.started ++ l ∧ paths.Sublist l

theorem Ends.of_loop {lines : List Str} {st : Session W} (hdepth : st.stack.length < maxNesting)
    (hload : host.load path (st.marked call).outer.world = some lines)
    (hends : LoopEnds host ((st.marked call).opened path argv lines) s)
    (hstarted : ∃ l, s.started = st.started ++ l ∧ paths.Sublist l) :
    ∃ r, Ends host path argv call st paths r := by
  have hframe := hends.frame
  obtain ⟨n, hn⟩ := hends
  refine ⟨((popBatch (st.marked call).outer.echoOn s).outer.errorlevel,
    popBatch (st.marked call).outer.echoOn s), ⟨n, fun fuel hfuel => ?_⟩, ?_, ?_⟩
  · rw [runBatch_eq (Nat.ne_of_lt hdepth), hload]
    dsimp only
    rw [hn fuel hfuel fuel hfuel, Option.map_some]
  · exact popBatch_stack hframe
  · rw [popBatch_started]
    exact hstarted

/-- The file that was replaced has no more lines to run. -/
theorem fetch_marked {st : Session W} (h : s.stack = (st.marked false).stack) : s.fetch = none := by
  unfold Session.fetch
  rw [h]
  unfold marked withTop
  rw [if_neg Bool.false_ne_true]
  cases hstack : st.stack with
  | nil =>
    rw [hstack]
  | cons b rest =>
    dsimp only
    rw [Bool.not_true, Bool.and_false, Bool.false_and, if_neg Bool.false_ne_true]

theorem started_opened {lines : List Str} {st : Session W}
    (h : Frame ((st.marked call).opened path argv lines) s) :
    ∃ l, s.started = st.started ++ path :: l := by
  obtain ⟨l, hl⟩ := h.started
  have hmarked : (st.marked call).started = st.started := by
    unfold marked withTop
    split_ifs
    · rfl
    · split <;> rfl
  refine ⟨l, hl.symm.trans ?_⟩
  show ((st.marked call).started ++ [path]) ++ l = _
  rw [hmarked, append_assoc, singleton_append]

theorem Chain.ends {st : Session W} (h : Chain host path argv call st paths)
    (hdepth : st.stack.length + paths.length ≤ maxNesting) :
    ∃ r, Ends host path argv call st paths r := by
  induction h with
  | @last path argv lines call st st' hload hsteps hend =>
    have hframe := hsteps.frame
    have hne : st'.stack ≠ [] := by
      rw [← length_pos_iff, hframe.length]
      exact Nat.succ_pos _
    refine Ends.of_loop (Nat.lt_of_succ_le hdepth) hload (hsteps.loopEnds (.of_end hne hend)) ?_
    obtain ⟨l, hl⟩ := started_opened hframe
    exact ⟨path :: l, hl, .cons_cons _ (nil_sublist l)⟩
  | @next path path' p argv argv' lines paths call st st₁ st2 st3 hload hsteps hfetch hp hstarts
      _ ih =>
      have hframe := hsteps.frame.trans (fetch_frame hfetch)
      have hlength : st3.stack.length = st.stack.length + 1 := by
        rw [hstarts.stack, hframe.length]
        exact congrArg Nat.succ (Frame.marked call st).length
      rw [length_cons] at hdepth
      obtain ⟨r, ⟨n, hn⟩, hstack, l, hl, hsub⟩ := ih (by omega)
      obtain ⟨k, post, hpost, hruns⟩ := hstarts.runs
      -- the line that starts the next file returns, and the loop ends there
      have hline : ∀ fuel ≥ n + k, runLine host fuel p st2 = some (post r) := by
        intro fuel hfuel
        obtain ⟨m, rfl⟩ : ∃ m, fuel = m + k := ⟨fuel - k, by omega⟩
        rw [hruns m, hn m (by omega), Option.map_some]
      have hmarked : (post r).2.stack = (st3.marked false).stack := (hpost r).1.trans hstack
      have hne : (post r).2.stack ≠ [] := by
        rw [hmarked, ← length_pos_iff, (Frame.marked false st3).length, hlength]
        exact Nat.succ_pos _
      have hends : LoopEnds host st₁ (post r).2 :=
        .of_line hfetch hp hline (.of_end hne (fetch_marked hmarked))
      refine Ends.of_loop (by omega) hload (hsteps.loopEnds hends) ?_
      obtain ⟨l0, hl0⟩ := started_opened hframe
      refine ⟨path :: (l0 ++ l), ?_, (hsub.trans (sublist_append_right _ _)).cons_cons _⟩
      rw [(hpost r).2, hl, hstarts.started, hl0, append_assoc, cons_append]

/-- A line that starts a chain of batch files returns and has run all of them, if the
stack has room for them. -/
theorem chain_runs {line path : Str} {argv paths : List Str} {call : Bool} {st st₁ : Session W}
    (hstarts : Starts host line st path argv call st₁)
    (hchain : Chain host path argv call st₁ paths)
    (hdepth : st.stack.length + paths.length ≤ maxNesting) :
    ∃ r, (∃ n, ∀ fuel ≥ n, runLine host fuel line st = some r) ∧
      ∃ l, r.2.started = st.started ++ l ∧ paths.Sublist l := by
  rw [← hstarts.stack] at hdepth
  obtain ⟨r, ⟨n, hn⟩, -, l, hl, hsub⟩ := hchain.ends hdepth
  obtain ⟨k, post, hpost, hruns⟩ := hstarts.runs
  refine ⟨post r, ⟨n + k, fun fuel hfuel => ?_⟩, l, ?_, hsub⟩
  · obtain ⟨m, rfl⟩ : ∃ m, fuel = m + k := ⟨fuel - k, by omega⟩
    rw [hruns m, hn m (by omega), Option.map_some]
  · rw [(hpost r).2, hl, hstarts.started]

/-! ## Nine files -/

/-- Nine batch files, named by a digit; each but the last has one line, the name of the
next. -/
def linked : Host Unit where
  findProgram := fun name _ => .batch name
  load := fun path _ =>
    match path with
    | [c] =>
      if c = '9' then some [[]]
      else if c.isDigit then some [[Char.ofNat (c.toNat + 1)]] else none
    | _ => none
  exist := fun _ _ => false
  matching := fun _ _ => []
  command := fun _ _ outer => (0, outer)
  drive := fun _ outer => (0, outer)
  program := fun _ _ outer => (0, outer)
  apart := fun _ outer => outer
  openRedirect := fun _ _ _ outer => some outer

/-- Nothing is called, redirected or set. -/
structure Plain (st : Session Unit) : Prop where
  outer : st.outer = ⟨(), fun _ => none, false, false, 0⟩
  calling : st.calling = false
  table : st.table = noNames

def atPrompt : Session Unit := ⟨⟨(), fun _ => none, false, false, 0⟩, [], false, noNames, []⟩

theorem atPrompt_plain : Plain atPrompt := ⟨rfl, rfl, rfl⟩

theorem linked_starts {c : Char} (hc : c ∈ ['1', '2', '3', '4', '5', '6', '7', '8', '9'])
    (hst : Plain st) : Starts linked [c] st [c] [[c]] false st := by
  obtain ⟨outer, stack, calling, table, started⟩ := st
  obtain ⟨rfl, rfl, rfl⟩ := hst
  refine ⟨rfl, rfl, 1, fun r => (r.1, r.2.setErrorlevel r.1), fun r => ⟨rfl, rfl⟩, fun fuel => ?_⟩
  simp only [mem_cons, not_mem_nil, or_false] at hc
  rcases hc with rfl | rfl | rfl | rfl | rfl | rfl | rfl | rfl | rfl <;> (cases stack <;> rfl)

theorem marked_plain (hst : Plain st) : Plain (st.marked false) := by
  unfold marked withTop
  rw [if_neg Bool.false_ne_true]
  split
  · exact hst
  · exact ⟨hst.outer, hst.calling, hst.table⟩

theorem linked_next {c d : Char} (hload : linked.load [c] () = some [[d]])
    (hd : d ∈ ['1', '2', '3', '4', '5', '6', '7', '8', '9']) (hst : Plain st)
    (hrest : ∀ st', Plain st' → Chain linked [d] [[d]] false st' paths) :
    Chain linked [c] [[c]] false st ([c] :: paths) := by
  have hmarked := marked_plain hst
  have hplain : Plain (((st.marked false).opened [c] [[c]] [[d]]).withTop
      fun b => { b with next := b.next + 1 }) := ⟨hmarked.outer, hmarked.calling, hmarked.table⟩
  have hskip : skip [d] = [d] ∧ isLabel [d] = false := by
    simp only [mem_cons, not_mem_nil, or_false] at hd
    rcases hd with rfl | rfl | rfl | rfl | rfl | rfl | rfl | rfl | rfl <;> decide
  have hfetch := fetch_opened (st.marked false) [c] [[c]] [d] (by rw [hmarked.outer])
  rw [hskip.1] at hfetch
  exact .next hload (.here _) hfetch hskip.2 (linked_starts hd hplain) (hrest _ hplain)

theorem linked_last (hst : Plain st) : Chain linked ['9'] [['9']] false st [['9']] := by
  have hfetch := fetch_opened (st.marked false) ['9'] [['9']] [] (by rw [(marked_plain hst).outer])
  exact .last rfl (.label hfetch rfl (.here _)) rfl

theorem linked_eight (hst : Plain st) : Chain linked ['2'] [['2']] false st
    [['2'], ['3'], ['4'], ['5'], ['6'], ['7'], ['8'], ['9']] := by
  refine linked_next rfl (by decide) hst fun _ hst => ?_
  refine linked_next rfl (by decide) hst fun _ hst => ?_
  refine linked_next rfl (by decide) hst fun _ hst => ?_
  refine linked_next rfl (by decide) hst fun _ hst => ?_
  refine linked_next rfl (by decide) hst fun _ hst => ?_
  refine linked_next rfl (by decide) hst fun _ hst => ?_
  exact linked_next rfl (by decide) hst fun _ hst => linked_last hst

/-- Eight files have room. -/
theorem chain_runs_eight : ∃ r, (∃ n, ∀ fuel ≥ n, runLine linked fuel ['2'] atPrompt = some r) ∧
    ∃ l, r.2.started = [] ++ l ∧
      [['2'], ['3'], ['4'], ['5'], ['6'], ['7'], ['8'], ['9']].Sublist l :=
  chain_runs (linked_starts (by decide) atPrompt_plain) (linked_eight atPrompt_plain) (by decide)

/-- Nine have not: the last of them is not run. -/
theorem ninth_not_run : Starts linked ['1'] atPrompt ['1'] [['1']] false atPrompt ∧
    Chain linked ['1'] [['1']] false atPrompt
      [['1'], ['2'], ['3'], ['4'], ['5'], ['6'], ['7'], ['8'], ['9']] ∧
    (runLine linked 12 ['1'] atPrompt).map (·.2.started) =
      some [['1'], ['2'], ['3'], ['4'], ['5'], ['6'], ['7'], ['8']] :=
  ⟨linked_starts (by decide) atPrompt_plain,
    linked_next rfl (by decide) atPrompt_plain fun _ hst => linked_eight hst, by decide +kernel⟩

end ManiOS.Shell
