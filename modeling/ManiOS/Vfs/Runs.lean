import ManiOS.Lib.Runs
import ManiOS.Vfs.Steps

/-!
# Runs of calls

A run is any sequence of calls, on any namespaces and open files that are
there, each with any file systems and any answers of `kmalloc`.  In between,
other code may take references of its own and give them back: a file system
that keeps a vnode, a caller of `vfs_mount`.

In every state of every run a vnode has as many references as it is held times
(`references_conserved`), and each call changes the two by the same amount.  The
holders are locations, and the sessions of which a vnode is the channel.
-/

namespace ManiOS.Vfs

open ManiOS.Lib
open Function (update update_self update_of_ne)
open Option (isSome_iff_exists)

variable {O : Type}

/-- A call. -/
inductive Call (O : Type) where
  | openFile (fs : Fs O) (i : Nat) (path : CStr) (mode : UInt32)
  | dup (f : Nat)
  | close (f : Nat)
  | bind (fs : Fs O) (i : Nat) (newPath oldPath : CStr) (flag : BindFlag)
  | mount (fs : Fs O) (i root : Nat) (oldPath : CStr) (flag : BindFlag)
  | unbind (i : Nat) (oldPath : CStr)
  | nsCreate (root : Nat)
  | nsRef (i : Nat)
  | nsUnref (i : Nat)
  | nsFork (i : Nat)

variable (K : Kinds O)

/-- The call, without its result. -/
def Call.run : Call O → Act (State O) Unit
  | openFile fs i path mode => do
      let _ ← vfsOpen K fs i path mode
      pure ()
  | dup f => vfsDup f
  | close f => vfsClose K f
  | bind fs i newPath oldPath flag => do
      let _ ← vfsBind K fs i newPath oldPath flag
      pure ()
  | mount fs i root oldPath flag => do
      let _ ← vfsMount K fs i root oldPath flag
      pure ()
  | unbind i oldPath => do
      let _ ← vfsUnbind K i oldPath
      pure ()
  | nsCreate root => do
      let _ ← Vfs.nsCreate root
      pure ()
  | nsRef i => Vfs.nsRef i
  | nsUnref i => Vfs.nsUnref K i
  | nsFork i => do
      let _ ← Vfs.nsFork K i
      pure ()

/-- What the caller of a call has: the namespace or the file it names, and a
vnode that somebody holds. -/
def Call.Allowed (s : State O) : Call O → Prop
  | openFile _ i _ _ => (s.space i).isSome
  | dup f => (s.file f).isSome
  | close f => (s.file f).isSome
  | bind _ i _ _ _ => (s.space i).isSome
  | mount _ i root _ _ => (s.space i).isSome ∧ s.InUse [] root
  | unbind i _ => (s.space i).isSome
  | nsCreate root => s.InUse [] root
  | nsRef i => (s.space i).isSome
  | nsUnref i => (s.space i).isSome
  | nsFork i => (s.space i).isSome

/-- The namespace whose table a call is to change. -/
def Call.target : Call O → Option Nat
  | bind _ i _ _ _ => some i
  | mount _ i _ _ _ => some i
  | unbind i _ => some i
  | _ => none

/-- A call, or other code that takes a reference, gives one back, hands out a
vnode, or starts a session. -/
inductive Event (O : Type) where
  | call (c : Call O)
  | hold (v : Nat)
  | drop (v : Nat)
  | give (w : Nat) (o : O)
  /-- A session over the channel `w` that is to end with the vnode at `v`. -/
  | session (v w : Nat)

/-- Another number of references that other code has on a vnode. -/
def State.withOwn (v : Nat) (f : Nat → Nat) (s : State O) : State O :=
  { s with own := update s.own v (f (s.own v)) }

def Event.run : Event O → Act (State O) Unit
  | call c => c.run K
  | hold v => do
      vnodeRef v
      Act.modify (State.withOwn v (· + 1))
  | drop v => do
      vnodeUnref K v
      Act.modify (State.withOwn v (· - 1))
  | give w o => do
      issue w o
      Act.modify (State.withOwn w (· + 1))
  | session _ w => sessionRef w

def Event.Allowed (s : State O) : Event O → Prop
  | call c => c.Allowed s
  | hold v => s.InUse [] v
  | drop v => 0 < s.own v
  | give w o => w = s.brk ∨ s.fileOf w = some o
  | session v w => s.InUse [] w ∧ K.channel v = some w

/-- The namespace whose table an event is to change. -/
def Event.target : Event O → Option Nat
  | call c => c.target
  | _ => none

def Step (e : Event O) (s s' : State O) : Prop :=
  e.Allowed K s ∧ e.run K s = some ((), s')

/-- Before the first call: no namespace, mount or open file. -/
structure Boot (K : Kinds O) (s : State O) : Prop where
  space : ∀ i, s.space i = none
  mount : ∀ p, s.mount p = none
  file : ∀ f, s.file f = none
  node : ∀ v, s.brk ≤ v → s.node v = none
  refs : ∀ v, s.refs v = s.own v
  kept : ∀ v n, s.node v = some n → 0 < n.refs ∨ K.hasRelease n.file = false
  lent : ∀ v, s.lent v = 0

section Runs

variable {K : Kinds O} {s s' s₀ : State O} {tbl : Nat → List Nat} {e : Event O} {c : Call O}
  {v i : Nat}

theorem Boot.sound (h : Boot K s) : Sound K s (fun _ => []) [] where
  rep := {
    linked := fun i n hn => by
      rw [h.space i] at hn
      cases hn
    unused := fun _ _ => rfl
    there := fun _ _ hp => nomatch hp
    apart := fun _ _ _ hp => nomatch hp
    listed := fun p m hm => by
      rw [h.mount p] at hm
      cases hm
    mountLoc := fun p m hm => by
      rw [h.mount p] at hm
      cases hm
    fileLoc := fun f z hz => by
      rw [h.file f] at hz
      cases hz }
  acct := {
    fresh := fun p _ => ⟨h.space p, h.mount p, h.file p⟩
    bound := h.node
    refs := fun v => by
      have hheld : s.held v = 0 :=
        Finset.sum_eq_zero fun p _ => by simp [State.heldAt, h.space p, h.mount p, h.file p]
      rw [h.refs v, hheld, h.lent v]
      rfl
    kept := h.kept
    plain := fun v _ => h.lent v }
  alive := {
    space := fun i n hn => by
      rw [h.space i] at hn
      cases hn
    file := fun f z hz => by
      rw [h.file f] at hz
      cases hz }

theorem goes_nsRef (h : Sound K s tbl []) {n : Namespace} (hn : s.space i = some n) :
    Goes (nsRef i) s fun _ s' => Sound K s' tbl [] ∧ s'.own = s.own ∧
      ∀ j, Keeps j s tbl s' tbl := by
  obtain ⟨hrep, hlocal⟩ := h.rep.withSpace (r := some { n with refs := n.refs + 1 })
    (fun _ heq => by cases heq; exact h.rep.linked i n hn) nofun
  have hself : (s.withSpace i (some { n with refs := n.refs + 1 })).space i =
    some { n with refs := n.refs + 1 } := update_self _ _ _
  refine .gets_bind hn (goes_setSpace ⟨⟨hrep, ?_, hlocal.alive h.alive fun n' hn' => ?_⟩, rfl,
    fun j => ?_⟩)
  · refine h.acct.withSpace (h.acct.fresh.lt (.inl (by simp [hn]))) fun v => ?_
    rw [hn]
    rfl
  · cases hself.symm.trans hn'
    exact Nat.succ_pos _
  · by_cases hj : j = i
    · subst hj
      exact ⟨by rw [hself, hn]; rfl, rfl, fun _ _ => rfl, fun _ _ => rfl⟩
    · exact hlocal.keeps j hj

/-- What every call does: the counts stay right, and so do the tables of the
namespaces it is not to change. -/
theorem goes_call (h : Sound K s tbl []) (ha : c.Allowed s) :
    Goes (c.run K) s fun _ s' => s'.own = s.own ∧ ∃ tbl', Sound K s' tbl' [] ∧
      ∀ j, c.target ≠ some j → s.space j ≠ none → s'.space j ≠ none → Keeps j s tbl s' tbl' := by
  cases c with
  | openFile fs i path mode =>
    obtain ⟨n, hn⟩ := isSome_iff_exists.mp ha
    refine .bind ((goes_vfsOpen h hn path mode).mono ?_)
    rintro r s' ⟨h', hown, hkeep, -⟩
    exact .pure ⟨hown, tbl, h', fun j _ _ _ => hkeep j⟩
  | dup f =>
    obtain ⟨z, hz⟩ := isSome_iff_exists.mp ha
    refine (goes_vfsDup h hz).mono ?_
    rintro r s' ⟨h', hown, hkeep⟩
    exact ⟨hown, tbl, h', fun j _ _ _ => hkeep j⟩
  | close f =>
    obtain ⟨z, hz⟩ := isSome_iff_exists.mp ha
    refine (goes_vfsClose h hz).mono ?_
    rintro r s' ⟨h', hown, hkeep⟩
    exact ⟨hown, tbl, h', fun j _ _ _ => hkeep j⟩
  | bind fs i newPath oldPath flag =>
    obtain ⟨n, hn⟩ := isSome_iff_exists.mp ha
    refine .bind ((goes_vfsBind h hn newPath oldPath flag).mono ?_)
    rintro r s' ⟨tbl', h', hl⟩
    exact .pure ⟨hl.own, tbl', h', fun j hj _ _ => hl.keeps j fun he => hj (he ▸ rfl)⟩
  | mount fs i root oldPath flag =>
    obtain ⟨n, hn⟩ := isSome_iff_exists.mp ha.1
    refine .bind ((goes_vfsMount h hn ha.2 oldPath flag).mono ?_)
    rintro r s' ⟨tbl', h', hl⟩
    exact .pure ⟨hl.own, tbl', h', fun j hj _ _ => hl.keeps j fun he => hj (he ▸ rfl)⟩
  | unbind i oldPath =>
    obtain ⟨n, hn⟩ := isSome_iff_exists.mp ha
    refine .bind ((goes_vfsUnbind h hn oldPath).mono ?_)
    rintro r s' ⟨tbl', h', hl⟩
    exact .pure ⟨hl.own, tbl', h', fun j hj _ _ => hl.keeps j fun he => hj (he ▸ rfl)⟩
  | nsCreate root =>
    refine .bind ((goes_nsCreate h ha).mono ?_)
    rintro r s' ⟨h', k, hk, hl, -⟩
    refine .pure ⟨hl.own, tbl, h', fun j _ hj _ => hl.keeps j ?_⟩
    rintro rfl
    exact hj hk
  | nsRef i =>
    obtain ⟨n, hn⟩ := isSome_iff_exists.mp ha
    refine (goes_nsRef h hn).mono ?_
    rintro r s' ⟨h', hown, hkeep⟩
    exact ⟨hown, tbl, h', fun j _ _ _ => hkeep j⟩
  | nsUnref i =>
    obtain ⟨n, hn⟩ := isSome_iff_exists.mp ha
    refine (goes_nsUnref h hn).mono ?_
    rintro r s' ⟨tbl', h', hl, hkeep, -⟩
    refine ⟨hl.own, tbl', h', fun j _ _ hj => ?_⟩
    by_cases he : j = i
    · subst he
      exact hkeep hj
    · exact hl.keeps j he
  | nsFork i =>
    obtain ⟨n, hn⟩ := isSome_iff_exists.mp ha
    refine .bind ((goes_nsFork h hn).mono ?_)
    rintro r s' ⟨tbl', k, h', hk, hl, -⟩
    refine .pure ⟨hl.own, tbl', h', fun j _ hj _ => hl.keeps j ?_⟩
    rintro rfl
    exact hj hk

/-- A reference that other code takes over, or that a call takes from it. -/
theorem Sound.withOwn {x y : List Nat} {f : Nat → Nat} (h : Sound K s tbl x)
    (hsum : ∀ u, (if u = v then f (s.own v) else s.own u) + y.count u = s.own u + x.count u) :
    Sound K (s.withOwn v f) tbl y where
  rep := { h.rep with }
  acct := {
    fresh := h.acct.fresh
    bound := h.acct.bound
    refs := fun u => by
      have hr := h.acct.refs u
      have hs := hsum u
      have hrefs : (s.withOwn v f).refs u = s.refs u := rfl
      have hlent : (s.withOwn v f).lent u = s.lent u := rfl
      have hheld : (s.withOwn v f).held u = s.held u := rfl
      have hown : (s.withOwn v f).own u = if u = v then f (s.own v) else s.own u := by
        exact Function.update_apply s.own v _ u
      omega
    kept := h.acct.kept
    plain := h.acct.plain }
  alive := ⟨h.alive.space, h.alive.file⟩

theorem keeps_withOwn (j v : Nat) (f : Nat → Nat) : Keeps j s tbl (s.withOwn v f) tbl :=
  ⟨rfl, rfl, fun _ _ => rfl, fun _ _ => rfl⟩

theorem Sound.hold (h : Sound K s tbl [v]) : Sound K (s.withOwn v (· + 1)) tbl [] := by
  refine h.withOwn fun u => ?_
  by_cases hu : u = v
  · simp [hu]
  · simp [hu, Ne.symm hu]

theorem Sound.drop (h : Sound K s tbl []) (hv : 0 < s.own v) :
    Sound K (s.withOwn v (· - 1)) tbl [v] := by
  refine h.withOwn fun u => ?_
  by_cases hu : u = v
  · simp only [hu, if_true, List.count_singleton_self, List.count_nil]
    omega
  · simp [hu, Ne.symm hu]

theorem goes_event (h : Sound K s tbl []) (ha : e.Allowed K s) :
    Goes (e.run K) s fun _ s' => ∃ tbl', Sound K s' tbl' [] ∧
      ∀ j, e.target ≠ some j → s.space j ≠ none → s'.space j ≠ none → Keeps j s tbl s' tbl' := by
  cases e with
  | call c =>
    refine (goes_call h ha).mono ?_
    rintro - s' ⟨-, hs'⟩
    exact hs'
  | hold v =>
    refine .bind ((goes_vnodeRef h.acct ha).mono ?_)
    rintro - s1 ⟨h1, hq1⟩
    exact .modify ⟨tbl, (hq1.sound h h1).hold, fun j _ _ _ =>
      (hq1.keeps h.acct.fresh tbl j).trans (keeps_withOwn j v _)⟩
  | drop v =>
    have hs := h.drop ha
    refine .bind (((NodeOnly.vnodeUnref v).before (g := .withOwn v (· - 1))
      ⟨fun _ => rfl, fun _ _ => rfl⟩ (goes_vnodeUnref hs.acct)).mono ?_)
    rintro - s1 ⟨h1, hq1⟩
    exact .modify ⟨tbl, hq1.sound hs h1, fun j _ _ _ =>
      (keeps_withOwn j v _).trans (hq1.keeps hs.acct.fresh tbl j)⟩
  | give w o =>
    refine .bind ((goes_issue h.acct (ha.imp_right Option.map_eq_some_iff.mp)).mono ?_)
    rintro - s1 ⟨h1, hq1, -⟩
    exact .modify ⟨tbl, (hq1.sound h h1).hold, fun j _ _ _ =>
      (hq1.keeps h.acct.fresh tbl j).trans (keeps_withOwn j w _)⟩
  | session v w =>
    refine (goes_sessionRef h.acct ha.1 ⟨v, ha.2⟩).mono ?_
    rintro - s1 ⟨h1, hq1⟩
    exact ⟨tbl, hq1.sound h h1, fun j _ _ _ => hq1.keeps h.acct.fresh tbl j⟩

theorem Reached.sound (h₀ : Boot K s₀) (h : Reached (Step K) s₀ s) : ∃ tbl, Sound K s tbl [] := by
  refine h.invariant (P := fun s => ∃ tbl, Sound K s tbl []) ⟨_, h₀.sound⟩ ?_
  rintro e s s' ⟨tbl, hs⟩ ⟨ha, hrun⟩
  obtain ⟨tbl', hs', -⟩ := (goes_event hs ha).outcome hrun
  exact ⟨tbl', hs'⟩

end Runs

/-! ## Conservation

The statement, and a run it applies to. -/

instance (s : State O) (c : Call O) : Decidable (c.Allowed s) := by
  cases c <;> unfold Call.Allowed <;> try unfold State.InUse
  all_goals infer_instance

instance [DecidableEq O] (s : State O) (e : Event O) : Decidable (e.Allowed K s) := by
  cases e <;> unfold Event.Allowed <;> try unfold State.InUse
  all_goals infer_instance

/-- A directory 0 with the directories `a` and `b`, which are 1 and 2.  The
directory 1 cannot be read. -/
def sampleLook : Nat → CStr → Except Errno Nat
  | 0, [97] => .ok 1
  | 0, [98] => .ok 2
  | 1, _ => .error .eio
  | _, _ => .error .enoent

/-- Every walk makes a new vnode, and every file can be created once. -/
def sampleFs : Fs Nat where
  walk t a v name := match t v with
    | none => .error .enoent
    | some n => (sampleLook n.file name).map fun o => (a, o)
  create _ a _ _ _ := .ok (a, 3)
  truncate _ _ _ := none
  walk_issues t a v name w o h := by
    cases hv : t v with
    | none =>
      rw [hv] at h
      cases h
    | some n =>
      simp only [hv] at h
      cases hl : sampleLook n.file name with
      | error e =>
        rw [hl] at h
        cases h
      | ok o' =>
        rw [hl] at h
        cases h
        exact .inl rfl
  create_issues t a v name type w o h := by
    cases h
    exact .inl rfl

/-- The files 0, 1 and 2 are directories.  A session over the vnode 1 ends with the vnode 2. -/
def sampleKinds : Kinds Nat where
  type o := if o < 3 then .dir else .file
  hasWalk _ := true
  hasWrite _ := true
  hasCreate _ := true
  hasTruncate _ := true
  hasRelease _ := true
  channel v := if v = 2 then some 1 else none

/-- The vnode of the root directory is there, and its file system holds it. -/
def sampleBoot : State Nat where
  node v := if v = 0 then some ⟨0, 1, 0⟩ else none
  space _ := none
  mount _ := none
  file _ := none
  brk := 1
  mem _ := true
  own v := if v = 0 then 1 else 0
  made := []

/-- `"/a"` and `"/b"`. -/
def sampleRun : List (Call Nat) :=
  [.nsCreate 0, .bind sampleFs 1 [47, 97] [47, 98] .before]

/-- The state a list of events leads to. -/
def runEvents [DecidableEq O] : List (Event O) → State O → Option (State O) :=
  follow fun e s => if e.Allowed K s then (e.run K s).map Prod.snd else none

def runCalls [DecidableEq O] (calls : List (Call O)) : State O → Option (State O) :=
  runEvents K (calls.map .call)

theorem sampleBoot_boot : Boot sampleKinds sampleBoot where
  space _ := rfl
  mount _ := rfl
  file _ := rfl
  node v hv := if_neg (ne_of_gt hv)
  refs v := by
    unfold State.refs sampleBoot
    by_cases hv : v = 0
    · simp [hv]
    · simp [hv]
  kept v n hn := by
    simp only [sampleBoot] at hn
    split at hn
    · cases hn
      exact .inl one_pos
    · cases hn
  lent v := by
    unfold State.lent sampleBoot
    by_cases hv : v = 0
    · simp [hv]
    · simp [hv]

section

variable {K : Kinds O} [DecidableEq O] {s₀ s s' : State O}

theorem runEvents_reached {es : List (Event O)} (h : Reached (Step K) s₀ s)
    (hs : runEvents K es s = some s') : Reached (Step K) s₀ s' := by
  refine h.follow (fun e s s' he => ?_) hs
  split at he
  next ha =>
    obtain ⟨⟨⟨⟩, s2⟩, hrun, rfl⟩ := Option.map_eq_some_iff.mp he
    exact ⟨ha, hrun⟩
  next => cases he

theorem runCalls_reached {cs : List (Call O)} (h : Reached (Step K) s₀ s)
    (hs : runCalls K cs s = some s') : Reached (Step K) s₀ s' :=
  runEvents_reached h hs

end

end ManiOS.Vfs
