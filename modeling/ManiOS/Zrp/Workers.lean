import Mathlib.Data.List.Basic
import ManiOS.Lib.Runs

/-!
# The workers of a ZRP server

The receiver puts requests into a queue, and worker threads take them out.  Workers
are started as needed, up to 16.  One that finds the queue empty waits, but only one:
others leave.

What happens under the server's lock is one step.  The only thing that another thread
does in the middle of it is the check of a worker that goes to sleep, which reads the
queue without the lock: it finds the queue of before the step or that of after it.

`zrp_serve` starts the receiver before it starts the first worker.  To do that it sets
`queued` to 1 and then to 0, under the lock.  A request that the receiver has queued by
then is not counted any more (`worker_missed`).  In all runs where the first request
comes later, no request is left behind (`workers_run`).
-/

namespace ManiOS.Zrp

open Lib (Reached)
open List

variable {α : Type}

def workersMax : Nat := 16

def queueMax : Nat := 64

/-- Where a worker is: not running yet, about to check the queue once more before it
sleeps, asleep, about to take the lock again, or working on a request. -/
inductive Phase (α : Type) where
  | starting
  | checking
  | asleep
  | woken
  | busy (job : α)
deriving DecidableEq, Repr

/-- The worker waits: it has counted itself in `idle`. -/
def Phase.waits : Phase α → Bool
  | .checking | .asleep | .woken => true
  | .starting | .busy _ => false

/-- The worker is counted in `idle`. -/
def Phase.idles : Phase α → Bool
  | .starting | .checking | .asleep | .woken => true
  | .busy _ => false

def Phase.sleeps : Phase α → Bool
  | .asleep => true
  | _ => false

/-- The worker can run, and will look at the queue. -/
def Phase.looks : Phase α → Bool
  | .starting | .checking | .woken => true
  | .asleep | .busy _ => false

/-- The worker has a request. -/
def Phase.works : Phase α → Bool
  | .busy _ => true
  | _ => false

/-- The queue and the workers of `struct zrp_server`.  `begun` says that `zrp_serve` has
been through its section. -/
structure Pool (α : Type) where
  queue : List α
  threads : List (Phase α)
  queued : Int
  workers : Int
  idle : Int
  begun : Bool
deriving DecidableEq, Repr

namespace Pool

/-- The loop of `enough_workers`, with a bound on the number of new workers. -/
def addWorkers : Nat → Pool α → Pool α
  | 0, s => s
  | n + 1, s =>
    if s.idle < s.queued ∧ s.workers < workersMax then
      addWorkers n { s with
        threads := s.threads ++ [.starting], workers := s.workers + 1, idle := s.idle + 1 }
    else s

def enoughWorkers (s : Pool α) : Pool α := s.addWorkers (workersMax - s.workers).toNat

/-- `waitq_wake_one`, for a worker that sleeps if there is one. -/
def wakeOne (i : Nat) (s : Pool α) : Option (Pool α) :=
  if s.threads.any Phase.sleeps then
    if (s.threads[i]?).any Phase.sleeps then some { s with threads := s.threads.set i .woken }
    else none
  else some s

/-- The part of `receive` that queues a request. -/
def receive (job : α) (i : Nat) (s : Pool α) : Option (Pool α) :=
  if s.queued < queueMax then
    ({ s with queue := s.queue ++ [job], queued := s.queued + 1 } : Pool α).enoughWorkers.wakeOne i
  else some s

/-- The section of `zrp_serve`. -/
def serve (s : Pool α) : Pool α :=
  { ({ s with queued := 1 } : Pool α).enoughWorkers with queued := 0, begun := true }

/-- A worker has the lock, and goes on at the head of its loop. -/
def look (i : Nat) (s : Pool α) : Pool α :=
  match s.queue with
  | [] =>
    if s.idle ≠ 0 then { s with workers := s.workers - 1, threads := s.threads.eraseIdx i }
    else { s with idle := s.idle + 1, threads := s.threads.set i .checking }
  | job :: queue =>
    { s with queue, queued := s.queued - 1, threads := s.threads.set i (.busy job) }

/-- The check before the sleep, with interrupts off. -/
def check (i : Nat) (s : Pool α) : Pool α :=
  { s with threads := s.threads.set i (if s.queue.isEmpty then .asleep else .woken) }

/-- What can happen: a request comes, or comes again while it is in progress; `zrp_serve`
goes on; a worker starts, checks the queue before it sleeps, goes on after that, or has
finished a request. -/
inductive Act (α : Type) where
  | receive (job : α) (i : Nat)
  | again
  | serve
  | start (i : Nat)
  | check (i : Nat)
  | resume (i : Nat)
  | finish (i : Nat)

def next (s : Pool α) : Act α → Option (Pool α)
  | .receive job i => s.receive job i
  | .again => some s.enoughWorkers
  | .serve => if s.begun then none else some s.serve
  | .start i =>
    match s.threads[i]? with
    | some .starting => some (look i { s with idle := s.idle - 1 })
    | _ => none
  | .check i =>
    match s.threads[i]? with
    | some .checking => some (s.check i)
    | _ => none
  | .resume i =>
    match s.threads[i]? with
    | some .woken => some (look i { s with idle := s.idle - 1 })
    | _ => none
  | .finish i =>
    match s.threads[i]? with
    | some (.busy _) => some (s.look i)
    | _ => none

def Step (a : Act α) (s s' : Pool α) : Prop := s.next a = some s'

/-- A server that `zrp_serve` has just made. -/
def init : Pool α := ⟨[], [], 0, 0, 0, false⟩

/-- `zrp_serve` has been through its section when the receiver queues a request. -/
def Timely (s : Pool α) : Act α → Prop
  | .receive _ _ => s.begun = true
  | _ => True

/-- A step of a run where the first request does not come too early. -/
def TimelyStep (a : Act α) (s s' : Pool α) : Prop := Step a s s' ∧ s.Timely a

variable {s s' : Pool α} {i : Nat} {p : Phase α}

/-! ## The invariant -/

/-- The counters are right, and at most one worker waits. -/
structure Counted (s : Pool α) : Prop where
  queued : s.queued = s.queue.length
  idle : s.idle = s.threads.countP Phase.idles
  workers : s.workers = s.threads.length
  max : s.threads.length ≤ workersMax
  waits : s.threads.countP Phase.waits ≤ 1
  before : s.begun = false → s.queue = []

/-- There are workers for the queue, and none of them sleeps. -/
structure Inv (s : Pool α) : Prop extends Counted s where
  enough : s.queued ≤ s.idle ∨ s.workers = workersMax
  awake : s.queue ≠ [] → s.threads.countP Phase.sleeps = 0

theorem waits_le_idles (l : List (Phase α)) : l.countP Phase.waits ≤ l.countP Phase.idles :=
  countP_mono_left fun p _ hp => by cases p <;> first | rfl | cases hp

theorem sleeps_le_waits (l : List (Phase α)) : l.countP Phase.sleeps ≤ l.countP Phase.waits :=
  countP_mono_left fun p _ hp => by cases p <;> first | rfl | cases hp

theorem idles_add_works (l : List (Phase α)) :
    l.countP Phase.idles + l.countP Phase.works = l.length := by
  induction l with
  | nil => rfl
  | cons p l ih =>
    rw [countP_cons, countP_cons, length_cons]
    cases p <;> simp only [Phase.idles, Phase.works, if_true, Bool.false_eq_true, if_false] <;>
      omega

theorem countP_set {l : List (Phase α)} (h : l[i]? = some p) (f : Phase α → Bool) (q : Phase α) :
    (l.set i q).countP f + (if f p = true then 1 else 0) =
      l.countP f + if f q = true then 1 else 0 := by
  induction l generalizing i with
  | nil => cases h
  | cons r l ih =>
    cases i with
    | zero =>
      cases h
      rw [set_cons_zero, countP_cons, countP_cons]
      omega
    | succ i =>
      have := ih h
      rw [set_cons_succ, countP_cons, countP_cons]
      omega

theorem countP_eraseIdx {l : List (Phase α)} (h : l[i]? = some p) (f : Phase α → Bool) :
    (l.eraseIdx i).countP f + (if f p = true then 1 else 0) = l.countP f := by
  induction l generalizing i with
  | nil => cases h
  | cons r l ih =>
    cases i with
    | zero =>
      cases h
      rw [eraseIdx_cons_zero, countP_cons]
    | succ i =>
      have := ih h
      rw [eraseIdx_cons_succ, countP_cons, countP_cons]
      omega

/-! ## The steps -/

theorem addWorkers_spec (n : Nat) (s : Pool α) (hmax : s.workers ≤ workersMax) :
    ∃ k : Nat, s.addWorkers n = { s with
        threads := s.threads ++ replicate k .starting
        workers := s.workers + k
        idle := s.idle + k } ∧
      s.workers + k ≤ workersMax ∧
      ((workersMax - s.workers).toNat ≤ n →
        s.queued ≤ s.idle + k ∨ s.workers + k = workersMax) := by
  induction n generalizing s with
  | zero =>
    refine ⟨0, ?_, by omega, fun hn => .inr (by omega)⟩
    simp [addWorkers]
  | succ n ih =>
    rw [addWorkers]
    split
    next hmore =>
      obtain ⟨k, hk, hle, henough⟩ := ih { s with
        threads := s.threads ++ [.starting], workers := s.workers + 1, idle := s.idle + 1 }
        (by dsimp only; omega)
      dsimp only at hk hle henough
      refine ⟨k + 1, ?_, by omega, fun hn => ?_⟩
      · rw [hk, append_assoc, Int.add_right_comm,
          Int.add_assoc, Int.add_right_comm s.idle, Int.add_assoc s.idle]
        rfl
      · omega
    next hdone =>
      refine ⟨0, ?_, by omega, fun _ => ?_⟩
      · simp
      · omega

theorem enoughWorkers_spec (hmax : s.workers ≤ workersMax) : ∃ k : Nat, s.enoughWorkers = { s with
        threads := s.threads ++ replicate k .starting
        workers := s.workers + k
        idle := s.idle + k } ∧
      s.workers + k ≤ workersMax ∧ (s.queued ≤ s.idle + k ∨ s.workers + k = workersMax) := by
  obtain ⟨k, hk, hle, henough⟩ := addWorkers_spec (workersMax - s.workers).toNat s hmax
  exact ⟨k, hk, hle, henough (Nat.le_refl _)⟩

theorem countP_started (f : Phase α → Bool) (l : List (Phase α)) (k : Nat) :
    (l ++ List.replicate k Phase.starting).countP f =
      l.countP f + if f Phase.starting = true then k else 0 := by
  rw [countP_append, countP_replicate]

theorem Counted.workers_le (h : Counted s) : s.workers ≤ workersMax := by
  have := h.max
  rw [h.workers]
  omega

theorem Counted.started (h : Counted s) {k : Nat} (hle : s.workers + k ≤ workersMax) :
    Counted { s with
      threads := s.threads ++ replicate k .starting
      workers := s.workers + k
      idle := s.idle + k } := by
  refine ⟨h.queued, ?_, ?_, ?_, ?_, h.before⟩
  · rw [countP_started, h.idle]
    rfl
  · rw [length_append, length_replicate, h.workers]
    rfl
  · rw [h.workers] at hle
    rw [length_append, length_replicate]
    omega
  · rw [countP_started]
    exact h.waits

theorem Counted.enoughWorkers (h : Counted s) :
    Counted s.enoughWorkers ∧ (s.enoughWorkers.queued ≤ s.enoughWorkers.idle ∨
      s.enoughWorkers.workers = workersMax) ∧ s.enoughWorkers.queue = s.queue ∧
      s.enoughWorkers.threads.countP Phase.sleeps = s.threads.countP Phase.sleeps := by
  obtain ⟨k, hk, hle, henough⟩ := enoughWorkers_spec h.workers_le
  rw [hk]
  exact ⟨h.started hle, henough, rfl, countP_started ..⟩

theorem Counted.move (h : Counted s) (hp : s.threads[i]? = some p) {q : Phase α}
    (hp' : p.waits = true) (hq : q.waits = true) :
    Counted { s with threads := s.threads.set i q } := by
  have hidles : ∀ r : Phase α, r.waits = true → r.idles = true := fun r hr => by
    cases r <;> first | rfl | cases hr
  have hidle := countP_set hp Phase.idles q
  have hwaits := countP_set hp Phase.waits q
  rw [hidles p hp', hidles q hq] at hidle
  rw [hp', hq] at hwaits
  refine ⟨h.queued, ?_, ?_, ?_, ?_, h.before⟩
  · rw [Nat.add_right_cancel hidle]
    exact h.idle
  · rw [length_set]
    exact h.workers
  · rw [length_set]
    exact h.max
  · rw [Nat.add_right_cancel hwaits]
    exact h.waits

theorem Counted.wakeOne (h : Counted s) (hs : s.wakeOne i = some s') :
    Counted s' ∧ s'.queued = s.queued ∧ s'.idle = s.idle ∧ s'.workers = s.workers ∧
      s'.threads.countP Phase.sleeps = 0 := by
  rw [Pool.wakeOne] at hs
  split at hs
  next =>
    obtain ⟨hi, ⟨⟩⟩ := Option.ite_none_right_eq_some.mp hs
    obtain ⟨p, hp, hsleeps⟩ := (Option.any_eq_true _ _).mp hi
    cases p <;> cases hsleeps
    refine ⟨h.move hp rfl rfl, rfl, rfl, rfl, ?_⟩
    have hwaits := h.waits
    have hle := sleeps_le_waits s.threads
    have hset := countP_set hp Phase.sleeps .woken
    simp only [Phase.sleeps, if_true, Bool.false_eq_true, if_false] at hset
    dsimp only
    omega
  next hnone =>
    cases hs
    refine ⟨h, rfl, rfl, rfl, countP_eq_zero.mpr fun p hp hsleeps => hnone ?_⟩
    exact any_eq_true.mpr ⟨p, hp, hsleeps⟩

variable (h : Inv s)
include h

theorem Inv.receive (hbegun : s.begun = true) {job : α}
    (hs : s.receive job i = some s') : Inv s' := by
  rw [Pool.receive] at hs
  split at hs
  next =>
    have hcounted : Counted { s with queue := s.queue ++ [job], queued := s.queued + 1 } := by
      refine ⟨?_, h.idle, h.workers, h.max, h.waits, fun hb => ?_⟩
      · rw [length_append, h.queued]
        rfl
      · cases hbegun.symm.trans hb
    obtain ⟨hc, henough, -⟩ := hcounted.enoughWorkers
    obtain ⟨hc', hqueued, hidle, hworkers, hsleeps⟩ := hc.wakeOne hs
    refine ⟨hc', ?_, fun _ => hsleeps⟩
    rw [hqueued, hidle, hworkers]
    exact henough
  next =>
    cases hs
    exact h

theorem Inv.again : Inv s.enoughWorkers := by
  obtain ⟨hc, henough, hqueue, hsleeps⟩ := h.toCounted.enoughWorkers
  refine ⟨hc, henough, ?_⟩
  rw [hqueue, hsleeps]
  exact h.awake

theorem Inv.serve (hbegun : s.begun = false) : Inv s.serve := by
  have hqueue := h.before hbegun
  obtain ⟨k, hk, hle, -⟩ := enoughWorkers_spec (s := { s with queued := 1 }) h.workers_le
  rw [Pool.serve, hk]
  dsimp only
  refine ⟨{ h.toCounted.started hle with queued := ?_, before := fun hb => by cases hb },
    .inl ?_, fun hne => absurd hqueue hne⟩
  · rw [hqueue]
    rfl
  · dsimp only
    rw [h.idle]
    omega

/-- A worker looks at the queue, and takes a request, waits or leaves.  It has counted
itself out of the idle ones before, if it was one of them. -/
theorem Inv.look (hp : s.threads[i]? = some p) (hsleeps : p.sleeps = false) {d : Nat}
    (hd : (if p.idles = true then 1 else 0) = d) : Inv (look i { s with idle := s.idle - d }) := by
  have hwaits := h.waits
  have hmax := h.max
  have hidle := h.idle
  have hworkers := h.workers
  have hpos := countP_eraseIdx hp Phase.idles
  have hlt := (List.getElem?_eq_some_iff.mp hp).1
  rw [hd] at hpos
  rw [Pool.look]
  cases hq : s.queue with
  | nil =>
    have hqueued : s.queued = 0 := by
      rw [h.queued, hq]
      rfl
    dsimp only
    by_cases hne : s.idle - d ≠ 0
    · have herase := countP_eraseIdx hp Phase.waits
      rw [if_pos hne]
      refine ⟨⟨?_, ?_, ?_, ?_, ?_, fun _ => rfl⟩, .inl ?_, fun hne => absurd rfl hne⟩ <;>
        dsimp only
      · rw [hqueued]
        rfl
      · omega
      · rw [length_eraseIdx_of_lt hlt]
        omega
      · rw [length_eraseIdx_of_lt hlt]
        omega
      · omega
      · omega
    · have hset := countP_set hp Phase.idles .checking
      have hset' := countP_set hp Phase.waits .checking
      have hle := waits_le_idles (s.threads.set i .checking)
      rw [hd] at hset
      simp only [Phase.idles, Phase.waits, if_true] at hset hset'
      rw [if_neg hne]
      refine ⟨⟨?_, ?_, ?_, ?_, ?_, fun _ => rfl⟩, .inl ?_, fun hne => absurd rfl hne⟩ <;>
        dsimp only
      · rw [hqueued]
        rfl
      · omega
      · rw [length_set]
        exact hworkers
      · rw [length_set]
        exact hmax
      · omega
      · omega
  | cons job rest =>
    have hqueued : s.queued = rest.length + 1 := by
      rw [h.queued, hq]
      rfl
    have hset := countP_set hp Phase.idles (.busy job)
    have hset' := countP_set hp Phase.waits (.busy job)
    have hset'' := countP_set hp Phase.sleeps (.busy job)
    have hawake := h.awake (by rw [hq]; nofun)
    have hnot : ∀ f : Phase α → Bool, f (.busy job) = false →
        (if f (.busy job) = true then 1 else 0) = 0 := fun f hf => if_neg (by rw [hf]; nofun)
    rw [hd, hnot _ rfl] at hset
    rw [hnot _ rfl] at hset'
    rw [hsleeps, if_neg nofun, hnot _ rfl] at hset''
    dsimp only
    refine ⟨⟨?_, ?_, ?_, ?_, ?_, fun hb => ?_⟩, ?_, fun _ => ?_⟩ <;> dsimp only
    · omega
    · omega
    · rw [length_set]
      exact hworkers
    · rw [length_set]
      exact hmax
    · omega
    · cases hq.symm.trans (h.before hb)
    · have hle : d ≤ 1 := by
        rw [← hd]
        split <;> omega
      refine h.enough.imp_left fun henough => ?_
      omega
    · omega

theorem Inv.check (hp : s.threads[i]? = some .checking) : Inv (s.check i) := by
  rw [Pool.check]
  by_cases hq : s.queue.isEmpty = true
  · rw [if_pos hq]
    exact ⟨h.move hp rfl rfl, h.enough, fun hne => absurd (isEmpty_iff.mp hq) hne⟩
  · rw [if_neg hq]
    refine ⟨h.move hp rfl rfl, h.enough, fun hne => ?_⟩
    have hset := countP_set hp Phase.sleeps .woken
    exact hset.trans (h.awake hne)

theorem Inv.step {a : Act α} (ht : s.Timely a) (hs : Step a s s') : Inv s' := by
  rw [Step] at hs
  cases a with
  | receive job i => exact h.receive ht hs
  | again =>
    cases hs
    exact h.again
  | serve =>
    rw [next] at hs
    obtain ⟨hbegun, ⟨⟩⟩ := Option.ite_none_left_eq_some.mp hs
    exact h.serve (Bool.eq_false_iff.mpr hbegun)
  | start i | resume i =>
    rw [next] at hs
    split at hs
    next hp =>
      cases hs
      exact h.look hp rfl (d := 1) rfl
    next => cases hs
  | check i =>
    rw [next] at hs
    split at hs
    next hp =>
      cases hs
      exact h.check hp
    next => cases hs
  | finish i =>
    rw [next] at hs
    split at hs
    next job hp =>
      cases hs
      have := h.look hp rfl (d := 0) rfl
      rwa [Int.natCast_zero, Int.sub_zero] at this
    next => cases hs

omit h

theorem init_inv : Inv (init : Pool α) :=
  ⟨⟨rfl, rfl, rfl, Nat.zero_le _, Nat.zero_le _, fun _ => rfl⟩, .inl (Int.le_refl _), fun _ => rfl⟩

/-- Where there are requests and not all workers are at work, one looks at the queue. -/
theorem Inv.looks (h : Inv s) (hqueue : s.queue ≠ [])
    (hworks : s.threads.countP Phase.works < workersMax) : ∃ p ∈ s.threads, p.looks = true := by
  have hsum := idles_add_works s.threads
  have hlen := length_pos_iff.mpr hqueue
  have hidle := h.idle
  have hworkers := h.workers
  have hqueued := h.queued
  have hpos : 0 < s.threads.countP Phase.idles := by
    rcases h.enough with henough | henough <;> omega
  obtain ⟨p, hp, hidles⟩ := countP_pos_iff.mp hpos
  have hawake := countP_eq_zero.mp (h.awake hqueue) p hp
  refine ⟨p, hp, ?_⟩
  cases p with
  | starting => rfl
  | checking => rfl
  | asleep => exact absurd rfl hawake
  | woken => rfl
  | busy job => cases hidles

end Pool

open Pool

/-- In every run where the receiver queues its first request after `zrp_serve` has been
through its section, the counters are right, and no request is left behind: while it is
in the queue, all workers there can be are at work or one looks at the queue. -/
theorem workers_run {s : Pool α} (h : Reached TimelyStep (init : Pool α) s) :
    s.queued = s.queue.length ∧ s.idle = s.threads.countP Phase.idles ∧
      (s.queue ≠ [] → s.threads.countP Phase.works < workersMax →
        ∃ p ∈ s.threads, p.looks = true) := by
  have hinv : Inv s := h.invariant (P := Inv) init_inv fun _ _ _ hi hs => hi.step hs.2 hs.1
  exact ⟨hinv.queued, hinv.idle, hinv.looks⟩

/-- Two requests come while a worker is asleep. -/
theorem workers_run_two : ∃ s : Pool Nat, Reached TimelyStep init s ∧
      s.queue = [7, 8] ∧ s.idle = 2 ∧ ∃ p ∈ s.threads, p.looks = true := by
  have h1 : Reached (α := Act Nat) TimelyStep init ⟨[], [.starting], 0, 1, 1, true⟩ :=
    .step .serve .start ⟨rfl, trivial⟩
  have h2 : Reached TimelyStep init ⟨[], [.checking], 0, 1, 1, true⟩ :=
    h1.step (.start 0) ⟨rfl, trivial⟩
  have h3 : Reached TimelyStep init ⟨[], [.asleep], 0, 1, 1, true⟩ :=
    h2.step (.check 0) ⟨rfl, trivial⟩
  have h4 : Reached TimelyStep init ⟨[7], [.woken], 1, 1, 1, true⟩ :=
    h3.step (.receive 7 0) ⟨rfl, rfl⟩
  have h5 : Reached TimelyStep init ⟨[7, 8], [.woken, .starting], 2, 2, 2, true⟩ :=
    h4.step (.receive 8 0) ⟨rfl, rfl⟩
  exact ⟨_, h5, rfl, rfl, (workers_run h5).2.2 nofun (by decide)⟩

/-- A request that is queued before `zrp_serve` counts is not counted.  The next one waits
while the only worker is at work, and no other is started. -/
theorem worker_missed : ∃ s : Pool Nat, Reached Step init s ∧ s.queue = [8] ∧ s.queued = 0 ∧
      s.threads = [.busy 7] ∧ s.enoughWorkers = s := by
  have h1 : Reached Step init ⟨[7], [.starting], 1, 1, 1, false⟩ := .step (.receive 7 0) .start rfl
  have h2 : Reached Step init ⟨[7], [.starting], 0, 1, 1, true⟩ := h1.step .serve rfl
  have h3 : Reached Step init ⟨[], [.busy 7], -1, 1, 0, true⟩ := h2.step (.start 0) rfl
  have h4 : Reached Step init ⟨[8], [.busy 7], 0, 1, 0, true⟩ := h3.step (.receive 8 0) rfl
  exact ⟨_, h4, rfl, rfl, rfl, rfl⟩

end ManiOS.Zrp
