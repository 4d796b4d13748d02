import ManiOS.Lib.Fuel
import ManiOS.Shell.Line

/-!
# What a line leaves as it is

A line run from a batch file may mark it done, move it to a label or shift its
parameters, but the files below it on the stack stay as they are, and what was
started stays in the log (`Frame`).  Along with that, a line that returns with some
fuel returns the same with more (`runLine_agrees`).
-/

namespace ManiOS.Shell

open Lib (Agrees)

variable {W : Type} {host : Host W} {st : Session W}

/-- The batch files below the one that runs are as they were, and the log has only
grown. -/
structure Frame (st st' : Session W) : Prop where
  tail : st'.stack.tail = st.stack.tail
  length : st'.stack.length = st.stack.length
  started : st.started <+: st'.started

namespace Frame

variable {st st' st'' : Session W}

theorem trans (h : Frame st st') (h' : Frame st' st'') : Frame st st'' :=
  ⟨h'.tail.trans h.tail, h'.length.trans h.length, h.started.trans h'.started⟩

theorem of_eq (hstack : st'.stack = st.stack) (hstarted : st'.started = st.started) :
    Frame st st' :=
  ⟨by rw [hstack], by rw [hstack], hstarted ▸ List.prefix_rfl⟩

theorem refl (st : Session W) : Frame st st := of_eq rfl rfl

theorem withTop (st : Session W) (f : Batch → Batch) : Frame st (st.withTop f) := by
  unfold Session.withTop
  split
  · exact refl st
  · next b rest hstack => exact ⟨by rw [hstack]; rfl, by rw [hstack]; rfl, List.prefix_rfl⟩

end Frame

instance : IsTrans (Session W) Frame := ⟨fun _ _ _ => Frame.trans⟩

/-- Two results of a run from `st`, the second with no less fuel. -/
abbrev AgreesFrom (st : Session W) : Result W → Result W → Prop := Agrees Frame Prod.snd st

/-- A runner with no less fuel than another. -/
def Covers (run run' : Runner W) : Prop := ∀ line st, AgreesFrom st (run line st) (run' line st)

theorem AgreesFrom.same (r : Int × Session W) (hstack : r.2.stack = st.stack)
    (hstarted : r.2.started = st.started) : AgreesFrom st (some r) (some r) :=
  .some (.of_eq hstack hstarted)

theorem AgreesFrom.of_same {st' : Session W} {x y : Result W} (h : AgreesFrom st' x y)
    (hstack : st'.stack = st.stack) (hstarted : st'.started = st.started) : AgreesFrom st x y :=
  .before (.of_eq hstack hstarted) h

theorem AgreesFrom.map_same {x y : Result W} {f : Int × Session W → Int × Session W}
    (h : AgreesFrom st x y) (hstack : ∀ r, (f r).2.stack = r.2.stack)
    (hstarted : ∀ r, (f r).2.started = r.2.started) : AgreesFrom st (x.map f) (y.map f) :=
  .map (fun r => .of_eq (hstack r) (hstarted r)) h

/-! ## Batch files on the stack -/

/-- The batch file that runs is marked done, unless the next one is called. -/
def Session.marked (call : Bool) (st : Session W) : Session W :=
  if call then st else st.withTop fun b => { b with done := true }

/-- A batch file at its first line, on top of the stack. -/
def Session.opened (path : Str) (argv lines : List Str) (st : Session W) : Session W :=
  let b : Batch := ⟨lines, 0, ⟨argv.take argsMax, 0⟩, false⟩
  { st with stack := b :: st.stack, started := st.started ++ [path] }

theorem Frame.marked (call : Bool) (st : Session W) : Frame st (st.marked call) := by
  unfold Session.marked
  split_ifs
  · exact .refl st
  · exact .withTop st _

theorem runBatch_eq {run : Runner W} {fuel : Nat} {path : Str} {argv : List Str} {call : Bool}
    (hdepth : st.stack.length ≠ maxNesting) : runBatch host run fuel path argv call st =
      match host.load path (st.marked call).outer.world with
      | none => some (1, st.marked call)
      | some lines =>
        (batchLoop run fuel ((st.marked call).opened path argv lines)).map fun s =>
          ((popBatch (st.marked call).outer.echoOn s).outer.errorlevel,
            popBatch (st.marked call).outer.echoOn s) := by
  unfold runBatch
  rw [if_neg hdepth]
  rfl

theorem popBatch_started (echoBefore : Bool) (st : Session W) :
    (popBatch echoBefore st).started = st.started := by
  unfold popBatch
  dsimp only
  split_ifs <;> rfl

theorem popBatch_stack {e : Bool} {path : Str} {argv lines : List Str} {s : Session W}
    (h : Frame (st.opened path argv lines) s) : (popBatch e s).stack = st.stack := by
  have hpop : (popBatch e s).stack = s.stack.drop 1 := by
    unfold popBatch
    dsimp only
    split_ifs <;> rfl
  rw [hpop, List.drop_one, h.tail]
  rfl

theorem openFiles_frame {s : Stage} {st' : Session W} (h : openFiles host s st = some st') :
    Frame st st' := by
  obtain ⟨outer, -, rfl⟩ := Option.map_eq_some_iff.mp h
  exact .of_eq rfl rfl

/-! ## The functions of the interpreter -/

section

variable {run run' : Runner W} (hrun : Covers run run') {fuel fuel' : Nat}
include hrun

theorem ifCommand_agrees (rest : Str) (st : Session W) :
    AgreesFrom st (ifCommand host run rest st) (ifCommand host run' rest st) := by
  unfold ifCommand
  split
  · exact .same _ rfl rfl
  · exact hrun _ st
  · exact .same _ rfl rfl

theorem forLoop_agrees (var : Char) (cmd : Str) (items : List Str) (rc : Int) (st : Session W) :
    AgreesFrom st (forLoop run var cmd items rc st) (forLoop run' var cmd items rc st) := by
  induction items generalizing rc st with
  | nil => exact .same _ rfl rfl
  | cons item items ih =>
    unfold forLoop
    split_ifs
    · exact .same _ rfl rfl
    · exact (hrun _ st).bind fun r => ih r.1 r.2

theorem forCommand_agrees (rest : Str) (st : Session W) :
    AgreesFrom st (forCommand host run rest st) (forCommand host run' rest st) := by
  unfold forCommand
  split
  · exact .same _ rfl rfl
  · exact forLoop_agrees hrun _ _ _ _ st

theorem runCall_agrees (line : Str) (st : Session W) :
    AgreesFrom st (runCall run line st) (runCall run' line st) := by
  have hcall : AgreesFrom st _ _ := (hrun line { st with calling := true }).of_same rfl rfl
  exact hcall.map_same (fun _ => rfl) fun _ => rfl

theorem batchLoop_agrees (hfuel : fuel ≤ fuel') (st : Session W) :
    Agrees Frame id st (batchLoop run fuel st) (batchLoop run' fuel' st) := by
  induction fuel generalizing fuel' st with
  | zero => exact .none
  | succ fuel ih =>
    obtain ⟨n, rfl⟩ : ∃ n, fuel' = n + 1 := ⟨fuel' - 1, by omega⟩
    have hn : fuel ≤ n := Nat.le_of_succ_le_succ hfuel
    unfold batchLoop
    split
    · exact .none
    · next b rest hstack =>
      split_ifs
      · have htop := Frame.withTop st fun b => { b with next := b.next + 1 }
        split
        · exact (ih hn _).before htop
        · exact (ih hn _).before htop
        · exact ((hrun _ _).bind fun r => ih hn r.2).before htop
      · exact .some (.refl st)

theorem runBatch_agrees (hfuel : fuel ≤ fuel') (path : Str) (argv : List Str)
    (call : Bool) (st : Session W) : AgreesFrom st (runBatch host run fuel path argv call st)
      (runBatch host run' fuel' path argv call st) := by
  by_cases hdepth : st.stack.length = maxNesting
  · unfold runBatch
    rw [if_pos hdepth, if_pos hdepth]
    exact .same _ rfl rfl
  · rw [runBatch_eq hdepth, runBatch_eq hdepth]
    refine .before (.marked call st) ?_
    split
    · exact AgreesFrom.same _ rfl rfl
    · intro r hr
      obtain ⟨s, hs, rfl⟩ := Option.map_eq_some_iff.mp hr
      obtain ⟨hs', hframe⟩ := batchLoop_agrees hrun hfuel _ s hs
      refine ⟨by rw [hs', Option.map_some], ?_⟩
      have hstack := popBatch_stack (e := (st.marked call).outer.echoOn) hframe
      exact ⟨congrArg List.tail hstack, congrArg List.length hstack,
        (popBatch_started _ s).symm ▸ (List.prefix_append _ _).trans hframe.started⟩

theorem runCommand_agrees (name rest : Str) (st : Session W) :
    AgreesFrom st (runCommand host run name rest st) (runCommand host run' name rest st) := by
  unfold runCommand
  split_ifs
  · exact ifCommand_agrees hrun rest st
  · exact forCommand_agrees hrun rest st
  · exact .same _ rfl rfl
  · exact runCall_agrees hrun _ st
  · split
    · exact .same _ rfl rfl
    · exact .some (.withTop st _)
  · exact .some (.withTop st _)
  · exact .same _ rfl rfl

variable (hfuel : fuel ≤ fuel')
include hfuel

theorem runWord_agrees (text : Str) (st : Session W) :
    AgreesFrom st (runHere.runWord host run fuel st text)
      (runHere.runWord host run' fuel' st text) := by
  unfold runHere.runWord
  split
  · exact runCommand_agrees hrun _ _ st
  · split
    · exact .same _ rfl rfl
    · split
      · exact .same _ rfl rfl
      · exact .same _ rfl rfl
      · exact (runBatch_agrees hrun hfuel _ _ _ _).of_same rfl rfl
      · exact .same _ rfl rfl

theorem runHere_agrees (text : Str) (st : Session W) :
    AgreesFrom st (runHere host run fuel text st) (runHere host run' fuel' text st) := by
  unfold runHere
  dsimp only
  split
  · split_ifs
    · exact .same _ rfl rfl
    · exact runWord_agrees hrun hfuel _ st
  · exact runWord_agrees hrun hfuel _ st

theorem runStages_agrees (stages : List Stage) (st : Session W) :
    AgreesFrom st (runStages host run fuel stages st) (runStages host run' fuel' stages st) := by
  induction stages generalizing st with
  | nil => exact .same _ rfl rfl
  | cons s rest ih =>
    unfold runStages
    split
    · exact .same _ rfl rfl
    · next st1 hopen =>
      refine .before (openFiles_frame hopen) ?_
      split
      · exact runHere_agrees hrun hfuel _ st1
      · exact (ih _).of_same rfl rfl

theorem execLine_agrees (text : Str) (st : Session W) :
    AgreesFrom st (execLine host run fuel text st) (execLine host run' fuel' text st) := by
  unfold execLine
  dsimp only
  split_ifs with hnil hwhole
  · exact .same _ rfl rfl
  all_goals
    split
    · exact .same _ rfl rfl
    · refine .map_same ?_ (fun _ => rfl) fun _ => rfl
      exact (runStages_agrees hrun hfuel _ _).of_same rfl rfl

omit hfuel

end

/-- With more fuel a line gives what it gave, and the files below stay as they are. -/
theorem runLine_agrees {fuel fuel' : Nat} (hfuel : fuel ≤ fuel') :
    Covers (runLine host fuel) (runLine host fuel') := by
  induction fuel generalizing fuel' with
  | zero => exact fun line st => .none
  | succ fuel ih =>
    obtain ⟨n, rfl⟩ : ∃ n, fuel' = n + 1 := ⟨fuel' - 1, by omega⟩
    have hn : fuel ≤ n := Nat.le_of_succ_le_succ hfuel
    exact fun line st => execLine_agrees (ih hn) hn _ st

end ManiOS.Shell
