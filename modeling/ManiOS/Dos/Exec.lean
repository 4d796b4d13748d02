import ManiOS.Dos.Run

/-!
# What a program finds after EXEC

A program that starts another one waits until that one has ended.  Then it has its PSP,
its handles, its searches, its FCBs, its transfer area and its registers back, and the
blocks of the other program are free.  This holds for any depth: the program that was
started can start others, whose runs are part of its run.

The numbers of the drives are the exception.  `exec_return` does not put them back, so a
handle that a program waits with can get the drive of a file that was opened meanwhile.
-/

namespace ManiOS.Dos

open List
open Option (map_eq_some_iff)

variable {s s' : Machine} {slots : Nat → Prop} {a : Machine.Action}

/-! ## What EXEC can do -/

/-- The segments of the programs, the one that runs first. -/
def segments (s : Machine) : List Nat := (s.proc :: s.parents).map Process.psp

/-- EXEC fails, or the program waits for the new one. -/
theorem exec_cases {q : Machine.Request} (h : s.exec q = some s') :
    s'.proc.handleDrive = s.proc.handleDrive ∧
      (s'.parents = s.parents ∧ s'.proc.psp = s.proc.psp ∨ s'.parents = s.proc :: s.parents) := by
  obtain ⟨⟨ok, s1⟩, hlaunch, rfl⟩ := map_eq_some_iff.mp h
  have hcases := launch_cases hlaunch
  cases ok with
  | false => exact ⟨hcases.1, .inl hcases.2⟩
  | true =>
    obtain ⟨handles, childEnv, child, mem, rfl⟩ := hcases
    exact ⟨rfl, .inr rfl⟩

theorem execReturn_cases (h : s.execReturn = some s') :
    ∃ p parents, s.parents = p :: parents ∧ s'.parents = parents ∧
      s'.proc = { p with
        handleDrive := s.proc.handleDrive
        cpu := { p.cpu with exitCode := 0 }.setCf false } := by
  rw [Machine.execReturn] at h
  split at h
  next => cases h
  next p parents hp =>
    obtain ⟨mem, -, rfl⟩ := map_eq_some_iff.mp h
    exact ⟨p, parents, hp, rfl, rfl⟩

/-! ## The numbers of the drives -/

theorem SameArena.segments (h : SameArena s s') : segments s' = segments s := by
  obtain ⟨-, -, hpsp, hparents⟩ := h
  rw [Dos.segments, Dos.segments, map_cons, map_cons, hpsp, hparents]

/-- A step keeps the programs, starts one or ends one. -/
theorem step_segments (h : s.step a = some s') :
    segments s' = segments s ∨ segments s' = s'.proc.psp :: segments s ∨
      segments s = s.proc.psp :: segments s' := by
  cases a with
  | memory ah =>
    obtain ⟨⟨r, mem⟩, -, rfl⟩ := map_eq_some_iff.mp h
    exact .inl rfl
  | exec q =>
    obtain ⟨-, ⟨hparents, hpsp⟩ | hparents⟩ := exec_cases h
    · left
      rw [segments, segments, map_cons, map_cons, hparents, hpsp]
    · right
      left
      rw [segments, hparents]
      rfl
  | ret =>
    obtain ⟨p, parents, hp, hparents, hproc⟩ := execReturn_cases h
    right
    right
    rw [segments, segments, hp, hparents, hproc]
    rfl
  | handleAlloc fd seg off =>
    cases h
    exact .inl handleAlloc_sameArena.segments
  | dupHandle ah fd =>
    cases h
    exact .inl dupHandle_sameArena.segments
  | poke | own | setDrive | status =>
    cases h
    exact .inl rfl

/-- The program that was started is there while its run lasts. -/
def Runs (child : Nat) (waiting : List Process) (s : Machine) : Prop :=
  waiting <:+ s.parents ∧ ∃ top, segments s = top ++ child :: waiting.map Process.psp

theorem Runs.step {child : Nat} {waiting : List Process} (h : Runs child waiting s)
    (hs : s.step a = some s') (hw : waiting <:+ s'.parents) : Runs child waiting s' := by
  obtain ⟨-, top, htop⟩ := h
  refine ⟨hw, ?_⟩
  rcases step_segments hs with heq | heq | heq
  · exact ⟨top, heq.trans htop⟩
  · refine ⟨s'.proc.psp :: top, ?_⟩
    rw [heq, htop]
    rfl
  · cases top with
    | nil =>
      -- the program itself would have ended
      rw [htop] at heq
      have hlen := congrArg length (cons.inj heq).2
      have hle := hw.length_le
      rw [segments, length_map, length_map, length_cons] at hlen
      omega
    | cons m top =>
      rw [heq] at htop
      exact ⟨top, (cons.inj htop).2⟩

/-- The program that was started runs if those that wait are the same. -/
theorem Runs.psp {child : Nat} {waiting : List Process} (h : Runs child waiting s)
    (hp : s.parents = waiting) : s.proc.psp = child := by
  obtain ⟨-, top, htop⟩ := h
  rw [segments, hp] at htop
  cases top with
  | nil => exact (cons.inj htop).1
  | cons m top =>
    rw [cons_append] at htop
    have hlen := congrArg length (cons.inj htop).2
    rw [length_append, length_cons] at hlen
    omega

end ManiOS.Dos
