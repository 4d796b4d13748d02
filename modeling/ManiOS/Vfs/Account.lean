import Mathlib.Algebra.Order.BigOperators.Group.Finset
import ManiOS.Vfs.Calls

/-!
# References and who holds them

Every location holds one reference on each of its members: the location of an
open file, of a mount, or one that a call is working with.  A namespace holds a
reference on its root.  `Acct K s x` says that the counts are right while `x`
is what calls are working with: each vnode has as many references as it is held
times, by sessions too, and a vnode without references is gone, if its file system can release
it.

So a vnode that is held is there, and using it does not go wrong.  Each function
that works on vnodes gets one statement, about the change of `x` it makes.
-/

namespace ManiOS.Vfs

open ManiOS.Lib List Option

variable {O : Type}

/-! ## Counting -/

variable (s : State O)

def State.refs (v : Nat) : Nat := (s.node v).elim 0 Vnode.refs

/-- How many sessions have a vnode for their channel. -/
def State.lent (v : Nat) : Nat := (s.node v).elim 0 Vnode.lent

def State.fileOf (v : Nat) : Option O := (s.node v).map Vnode.file

/-- How often the object at an address holds a vnode. -/
def State.heldAt (p v : Nat) : Nat :=
  (s.space p).elim 0 (fun n => if n.root = v then 1 else 0)
    + (s.mount p).elim 0 (fun m => m.loc.count v)
    + (s.file p).elim 0 (fun x => x.loc.count v)

/-- How often a vnode is held by a namespace, a mount or an open file. -/
def State.held (v : Nat) : Nat := ∑ p ∈ Finset.range s.brk, s.heldAt p v

/-- A vnode is held, by an object, by other code or in `x`. -/
def State.InUse (x : List Nat) (v : Nat) : Prop := 0 < s.own v + s.held v + x.count v

/-- Nothing is allocated past the next address. -/
def State.Fresh : Prop :=
  ∀ p, s.brk ≤ p → s.space p = none ∧ s.mount p = none ∧ s.file p = none

/-- Some session is to end with a reference on the vnode. -/
def Kinds.IsChannel (K : Kinds O) (w : Nat) : Prop := ∃ v, K.channel v = some w

/-- The counts are right, while calls work with the members of `x`. -/
structure Acct (K : Kinds O) (s : State O) (x : List Nat) : Prop where
  fresh : s.Fresh
  bound : ∀ v, s.brk ≤ v → s.node v = none
  refs : ∀ v, s.refs v = s.own v + s.held v + x.count v + s.lent v
  kept : ∀ v n, s.node v = some n → 0 < n.refs ∨ K.hasRelease n.file = false
  plain : ∀ v, ¬ K.IsChannel v → s.lent v = 0

section Counting

variable {s s' : State O} {p v : Nat}

variable (h : s.Fresh)
include h

theorem State.Fresh.heldAt (hp : s.brk ≤ p) : s.heldAt p v = 0 := by
  obtain ⟨hs, hm, hf⟩ := h p hp
  simp [State.heldAt, hs, hm, hf]

theorem State.Fresh.held_eq {n : Nat} (hn : s.brk ≤ n) :
    s.held v = ∑ p ∈ Finset.range n, s.heldAt p v := by
  refine Finset.sum_subset (Finset.range_subset_range.mpr hn) fun p _ hp => ?_
  exact h.heldAt (not_lt.mp fun hlt => hp (Finset.mem_range.mpr hlt))

theorem held_update (hbrk : s.brk ≤ s'.brk) (hp : p < s'.brk)
    (hne : ∀ q, q ≠ p → s'.heldAt q v = s.heldAt q v) :
    s'.held v + s.heldAt p v = s.held v + s'.heldAt p v := by
  rw [h.held_eq hbrk, State.held, ← Finset.sum_erase_add _ _ (Finset.mem_range.mpr hp),
    ← Finset.sum_erase_add (Finset.range s'.brk) (fun q => s.heldAt q v) (Finset.mem_range.mpr hp),
    Finset.sum_congr rfl fun q hq => hne q (Finset.ne_of_mem_erase hq)]
  omega

theorem held_congr (hbrk : s.brk ≤ s'.brk)
    (he : ∀ q, s'.heldAt q v = s.heldAt q v) : s'.held v = s.held v := by
  rw [h.held_eq hbrk]
  exact Finset.sum_congr rfl fun q _ => he q

theorem heldAt_le : s.heldAt p v ≤ s.held v := by
  rcases lt_or_ge p s.brk with hlt | hge
  · exact Finset.single_le_sum (f := fun p => s.heldAt p v) (fun _ _ => Nat.zero_le _)
      (Finset.mem_range.mpr hlt)
  · rw [h.heldAt hge]
    exact Nat.zero_le _

omit h

end Counting

/-! ## Programs that only work on vnodes -/

/-- No object changed, no file was made, and the vnodes in use, those of `x`
included, stand for what they stood for. -/
structure Quiet (x : List Nat) (s s' : State O) : Prop where
  space : s'.space = s.space
  mount : s'.mount = s.mount
  file : s'.file = s.file
  own : s'.own = s.own
  made : s'.made = s.made
  brk : s.brk ≤ s'.brk
  kept : ∀ v, s.InUse x v → s'.fileOf v = s.fileOf v

section Quiet

variable {K : Kinds O} {s s' s'' : State O} {x y : List Nat} {v : Nat} {n : Option (Vnode O)}

variable (h : Quiet x s s')
include h

theorem Quiet.heldAt (p v : Nat) : s'.heldAt p v = s.heldAt p v := by
  unfold State.heldAt
  rw [h.space, h.mount, h.file]

theorem Quiet.held (hf : s.Fresh) (v : Nat) : s'.held v = s.held v :=
  held_congr hf h.brk fun q => h.heldAt q v

theorem Quiet.fresh (hf : s.Fresh) : s'.Fresh := by
  intro p hp
  rw [h.space, h.mount, h.file]
  exact hf p (le_trans h.brk hp)

theorem Quiet.inUse (hf : s.Fresh) : s'.InUse y v ↔ s.InUse y v := by
  unfold State.InUse
  rw [h.own, h.held hf]

omit h

theorem Quiet.refl (x : List Nat) (s : State O) : Quiet x s s :=
  ⟨rfl, rfl, rfl, rfl, rfl, le_rfl, fun _ _ => rfl⟩

theorem Quiet.trans (h : Quiet x s s') (hf : s.Fresh) (h' : Quiet x s' s'') : Quiet x s s'' where
  space := h'.space.trans h.space
  mount := h'.mount.trans h.mount
  file := h'.file.trans h.file
  own := h'.own.trans h.own
  made := h'.made.trans h.made
  brk := le_trans h.brk h'.brk
  kept v hv := (h'.kept v ((h.inUse hf).mpr hv)).trans (h.kept v hv)

theorem State.InUse.mono (h : s.InUse x v) (hle : x.count v ≤ y.count v) : s.InUse y v :=
  lt_of_lt_of_le h (Nat.add_le_add_left hle _)

theorem State.InUse.of_mem (hv : v ∈ x) : s.InUse x v :=
  lt_of_lt_of_le (count_pos_iff.mpr hv) (Nat.le_add_left _ _)

theorem Quiet.mono (h : Quiet y s s') (hle : ∀ v, x.count v ≤ y.count v) : Quiet x s s' :=
  { h with kept := fun v hv => h.kept v (hv.mono (hle v)) }

theorem Acct.node (h : Acct K s x) (hv : s.InUse x v) : ∃ n, s.node v = some n ∧ 0 < n.refs := by
  have hr := h.refs v
  have hpos : 0 < s.refs v := hr ▸ Nat.add_pos_left hv _
  unfold State.refs at hpos
  cases hn : s.node v with
  | none =>
    rw [hn] at hpos
    exact absurd hpos (lt_irrefl 0)
  | some n =>
    rw [hn] at hpos
    exact ⟨n, rfl, hpos⟩

theorem Acct.recount (h : Acct K s x) (hc : ∀ v, y.count v = x.count v) : Acct K s y := { h with
  refs v := by rw [h.refs v, hc v] }

theorem Acct.lt (h : Acct K s x) {n : Vnode O} (hn : s.node v = some n) : v < s.brk := by
  by_contra hlt
  rw [h.bound v (not_lt.mp hlt)] at hn
  cases hn

theorem State.lent_eq {n : Vnode O} (hn : s.node v = some n) : s.lent v = n.lent := by
  rw [State.lent, hn, elim_some]

def State.grown (s : State O) : State O := { s with brk := s.brk + 1 }

theorem quiet_grown (x : List Nat) (s : State O) : Quiet x s s.grown :=
  ⟨rfl, rfl, rfl, rfl, rfl, Nat.le_succ _, fun _ _ => rfl⟩

theorem Acct.grown (h : Acct K s x) : Acct K s.grown x where
  fresh := (quiet_grown x s).fresh h.fresh
  bound v hv := h.bound v (Nat.le_of_succ_le hv)
  refs v := by
    rw [(quiet_grown x s).held h.fresh]
    exact h.refs v
  kept := h.kept
  plain := h.plain

def State.withNode (s : State O) (v : Nat) (n : Option (Vnode O)) : State O :=
  { s with node := Function.update s.node v n }

@[simp] theorem State.withNode_self (s : State O) (v : Nat) (n : Option (Vnode O)) :
    (s.withNode v n).node v = n := Function.update_self _ _ _

theorem State.withNode_of_ne (s : State O) {u : Nat} (hu : u ≠ v) (n : Option (Vnode O)) :
    (s.withNode v n).node u = s.node u := Function.update_of_ne hu _ _

theorem goes_setNode {post : Unit → State O → Prop}
    (h : post () (s.withNode v n)) : Goes (setNode v n) s post :=
  .modify h

/-- A store that leaves the file, or frees a vnode nobody else uses. -/
theorem quiet_withNode
    (hfile : s.InUse x v → n.map Vnode.file = s.fileOf v) : Quiet x s (s.withNode v n) where
  space := rfl
  mount := rfl
  file := rfl
  own := rfl
  made := rfl
  brk := le_rfl
  kept u hu := by
    unfold State.fileOf
    by_cases he : u = v
    · subst he
      rw [State.withNode_self]
      exact hfile hu
    · rw [s.withNode_of_ne he]

theorem Acct.withNode (h : Acct K s x) (hv : v < s.brk)
    (hrefs : n.elim 0 Vnode.refs + x.count v + s.lent v =
      s.refs v + y.count v + n.elim 0 Vnode.lent)
    (hother : ∀ u, u ≠ v → y.count u = x.count u)
    (hkept : ∀ m, n = some m → 0 < m.refs ∨ K.hasRelease m.file = false)
    (hlent : n.elim 0 Vnode.lent ≤ s.lent v ∨ K.IsChannel v) :
    Acct K (s.withNode v n) y where
  fresh := h.fresh
  bound u hu := by
    rw [s.withNode_of_ne (ne_of_gt (lt_of_lt_of_le hv hu))]
    exact h.bound u hu
  refs u := by
    have hr := h.refs u
    have hheld : (s.withNode v n).held u = s.held u := rfl
    have hown : (s.withNode v n).own u = s.own u := rfl
    by_cases hu : u = v
    · subst hu
      rw [State.refs, State.lent, State.withNode_self]
      omega
    · rw [State.refs, State.lent, s.withNode_of_ne hu, hheld, hown, hother u hu]
      exact hr
  kept u m hm := by
    by_cases he : u = v
    · subst he
      rw [State.withNode_self] at hm
      exact hkept m hm
    · rw [s.withNode_of_ne he] at hm
      exact h.kept u m hm
  plain u hu := by
    have hzero := h.plain u hu
    by_cases he : u = v
    · subst he
      rw [State.lent, State.withNode_self]
      exact Nat.le_zero.mp (hzero ▸ hlent.resolve_right hu)
    · rw [State.lent, s.withNode_of_ne he]
      exact hzero

theorem goes_vnodeRef (h : Acct K s x) (hv : s.InUse x v) :
    Goes (vnodeRef v) s fun _ s' => Acct K s' (v :: x) ∧ Quiet x s s' := by
  obtain ⟨n, hn, hpos⟩ := h.node hv
  refine .gets_bind hn (goes_setNode ⟨h.withNode (h.lt hn) ?_
    (fun _ hu => count_cons_of_ne hu.symm) ?_ (.inl (le_of_eq (State.lent_eq hn).symm)),
    quiet_withNode fun _ => ?_⟩)
  · simp only [elim_some, count_cons_self, State.refs, State.lent, hn]
    omega
  · rintro m ⟨⟩
    exact .inl (Nat.succ_pos _)
  · simp [State.fileOf, hn]

/-- A reference less, of those in use or of the sessions'. -/
theorem goes_lower {n : Vnode O} {l : Nat} (h : Acct K s y) (hn : s.node v = some n)
    (hle : l ≤ n.lent) (hsum : y.count v + n.lent = x.count v + l + 1)
    (hother : ∀ u, u ≠ v → x.count u = y.count u) :
    Goes (lower K v n l) s fun _ s' => Acct K s' x ∧ Quiet x s s' := by
  have hlent := State.lent_eq hn
  have hcount : n.refs = s.own v + s.held v + y.count v + n.lent := by
    have := h.refs v
    rw [hlent, State.refs, hn] at this
    exact this
  refine goes_setNode ?_
  split
  next hlast =>
    -- nobody else holds it
    refine ⟨h.withNode (h.lt hn) ?_ hother nofun (.inl (Nat.zero_le _)), quiet_withNode fun hu => ?_⟩
    · simp only [elim_none, State.refs, hlent, hn, elim_some]
      omega
    · unfold State.InUse at hu
      omega
  next hlast =>
    refine ⟨h.withNode (h.lt hn) ?_ hother ?_ (.inl (hlent ▸ hle)), quiet_withNode fun _ => ?_⟩
    · simp only [elim_some, State.refs, hlent, hn]
      omega
    · rintro m ⟨⟩
      rcases lt_or_ge 1 n.refs with hlt | hge
      · exact .inl (Nat.sub_pos_of_lt hlt)
      · exact .inr (Bool.eq_false_iff.mpr fun hrel => hlast ⟨by omega, hrel⟩)
    · simp [State.fileOf, hn]

theorem goes_sessionUnref (h : Acct K s x) (v : Nat) :
    Goes (sessionUnref K v) s fun _ s' => Acct K s' x ∧ Quiet x s s' := by
  refine .gets_bind rfl ?_
  cases hl : channelAt K s.node v with
  | none => exact .pure ⟨h, .refl x s⟩
  | some wn =>
    obtain ⟨w, -, hl⟩ := bind_eq_some_iff.mp hl
    obtain ⟨n, hn, hl⟩ := bind_eq_some_iff.mp hl
    obtain ⟨hpos, hl⟩ := ite_none_left_eq_some.mp hl
    cases hl
    exact goes_lower h hn (Nat.sub_le _ _) (by omega) fun _ _ => rfl

theorem goes_vnodeUnref (h : Acct K s (v :: x)) :
    Goes (vnodeUnref K v) s fun _ s' => Acct K s' x ∧ Quiet x s s' := by
  obtain ⟨n, hn, hpos⟩ := h.node (.of_mem mem_cons_self)
  refine .gets_bind hn ?_
  rw [if_neg (ne_of_gt hpos)]
  refine .bind ((goes_lower h hn le_rfl (by rw [count_cons_self]; omega) fun _ hu =>
    (count_cons_of_ne hu.symm).symm).mono ?_)
  rintro - s1 ⟨h1, hq1⟩
  split
  next =>
    refine (goes_sessionUnref h1 v).mono ?_
    rintro - s2 ⟨h2, hq2⟩
    exact ⟨h2, hq1.trans h.fresh hq2⟩
  next => exact .pure ⟨h1, hq1⟩

theorem goes_sessionRef (h : Acct K s x) (hv : s.InUse x v) (hc : K.IsChannel v) :
    Goes (sessionRef v) s fun _ s' => Acct K s' x ∧ Quiet x s s' := by
  obtain ⟨n, hn, hpos⟩ := h.node hv
  refine .gets_bind hn (goes_setNode ⟨h.withNode (h.lt hn) ?_ (fun _ _ => rfl) ?_ (.inr hc),
    quiet_withNode fun _ => ?_⟩)
  · simp only [elim_some, State.refs, State.lent, hn]
    omega
  · rintro m ⟨⟩
    exact .inl (Nat.succ_pos _)
  · simp [State.fileOf, hn]

/-- A vnode handed out: it is there already for the same file, or new. -/
theorem goes_issue (h : Acct K s x) {w : Nat} {o : O}
    (ho : w = s.brk ∨ ∃ n, s.node w = some n ∧ n.file = o) : Goes (issue w o) s fun _ s' =>
      Acct K s' (w :: x) ∧ Quiet x s s' ∧ s'.fileOf w = some o := by
  have hlt : w < s.grown.brk := by
    rcases ho with rfl | ⟨n, hn, -⟩
    · exact Nat.lt_succ_self _
    · exact Nat.lt_succ_of_lt (h.lt hn)
  have hfile : ∀ n, s.node w = some n → n.file = o := by
    intro n hn
    rcases ho with rfl | ⟨n', hn', rfl⟩
    · exact absurd (h.lt hn) (lt_irrefl _)
    · rw [hn] at hn'
      cases hn'
      rfl
  refine .get_bind (.modify_bind (goes_setNode ⟨h.grown.withNode hlt ?_
    (fun _ hu => count_cons_of_ne hu.symm) ?_ (.inl le_rfl),
    (quiet_grown x s).trans h.fresh (quiet_withNode fun hu => ?_), ?_⟩))
  · simp only [elim_some, count_cons_self, State.refs, State.lent, State.grown]
    omega
  · rintro m ⟨⟩
    exact .inl (Nat.succ_pos _)
  · obtain ⟨n, hn, -⟩ := h.grown.node hu
    have hn' : s.node w = some n := hn
    simp [State.fileOf, State.grown, hn', hfile n hn']
  · simp [State.fileOf]

end Quiet

/-! ## Walks over locations -/

/-- The file systems hold files that `look` describes: what a walk answers
depends on the file of the directory and the name alone. -/
def Fs.Shows (fs : Fs O) (look : O → CStr → Except Errno O) : Prop :=
  ∀ t a v n name, t a = none → t v = some n → (fs.walk t a v name).map Prod.snd = look n.file name

/-- The loop of `walk_location` over the files of the members. -/
def lookFrom (K : Kinds O) (look : O → CStr → Except Errno O) (name : CStr) :
    Errno → List O → Except Errno O
  | rc, [] => .error rc
  | rc, o :: os =>
    if K.type o ≠ .dir || !K.hasWalk o then lookFrom K look name rc os
    else
      match look o name with
      | .ok o' => .ok o'
      | .error e => lookFrom K look name e os

/-- A result stands for a file, or both are the same error. -/
def Stands : Except Errno Nat → Except Errno O → Prop
  | .ok w, .ok o => s.fileOf w = some o
  | .error e, .error e' => e = e'
  | _, _ => False

/-- The members of a location stand for these files. -/
def State.Files (loc : Location) (os : List O) : Prop :=
  List.Forall₂ (fun v o => s.fileOf v = some o) loc os

/-- What a call works with after a walk: one reference more if it succeeded. -/
def gained : Except Errno Nat → List Nat
  | .ok w => [w]
  | .error _ => []

section Walks

variable {K : Kinds O} {fs : Fs O} {s s' : State O} {x : List Nat}

theorem Stands.of_ok {w : Nat} {r : Except Errno O} (h : Stands s (.ok w) r) :
    ∃ o, r = .ok o ∧ s.fileOf w = some o := by
  cases r with
  | ok o => exact ⟨o, rfl, h⟩
  | error e => exact h.elim

theorem Stands.of_error {e : Errno} {r : Except Errno O} (h : Stands s (.error e) r) :
    r = .error e := by
  cases r with
  | ok o => exact h.elim
  | error e' => exact congrArg _ (.symm h)

theorem State.Files.quiet {loc : Location} {os : List O} (h : s.Files loc os) (hq : Quiet x s s')
    (hl : ∀ v ∈ loc, s.InUse x v) : s'.Files loc os := by
  induction h with
  | nil => exact .nil
  | cons ho _ ih =>
    refine .cons ((hq.kept _ (hl _ mem_cons_self)).trans ho) (ih fun v hv => ?_)
    exact hl v (mem_cons_of_mem _ hv)

theorem goes_walk (h : Acct K s x) {v : Nat} {n : Vnode O} (hn : s.node v = some n) (name : CStr) :
    Goes (walk fs v name) s fun r s' => Acct K s' (gained r ++ x) ∧ Quiet x s s' ∧
      ∀ look, fs.Shows look → Stands s' r (look n.file name) := by
  refine .get_bind ?_
  have hnone : s.node s.brk = none := h.bound _ le_rfl
  cases hw : fs.walk s.node s.brk v name with
  | error e =>
    refine .pure ⟨h, .refl x s, fun look hl => ?_⟩
    rw [← hl s.node s.brk v n name hnone hn, hw]
    rfl
  | ok wo =>
    refine .bind ((goes_issue h (fs.walk_issues _ _ _ _ _ _ hw)).mono ?_)
    rintro - s' ⟨ha, hq, hf⟩
    refine .pure ⟨ha, hq, fun look hl => ?_⟩
    rw [← hl s.node s.brk v n name hnone hn, hw]
    exact hf

theorem goes_locationRef (loc : Location) :
    ∀ {s : State O} {x : List Nat}, Acct K s x → (∀ v ∈ loc, s.InUse x v) →
      Goes (locationRef loc) s fun _ s' => Acct K s' (loc ++ x) ∧ Quiet x s s' := by
  induction loc with
  | nil => exact fun h _ => .pure ⟨h, .refl _ _⟩
  | cons v loc ih =>
    intro s x h hl
    refine .bind ((goes_vnodeRef h (hl v mem_cons_self)).mono ?_)
    rintro - s1 ⟨h1, hq1⟩
    refine (ih h1 fun u hu => ?_).mono ?_
    · refine (hq1.inUse h.fresh).mpr ((hl u (mem_cons_of_mem v hu)).mono ?_)
      exact count_le_count_cons
    · rintro - s2 ⟨h2, hq2⟩
      refine ⟨h2.recount fun u => ?_, hq1.trans h.fresh (hq2.mono fun u => count_le_count_cons)⟩
      simp only [cons_append, count_append, count_cons]
      omega

theorem goes_locationRelease (loc : Location) : ∀ {s : State O}, Acct K s (loc ++ x) →
      Goes (locationRelease K loc) s fun _ s' => Acct K s' x ∧ Quiet x s s' := by
  induction loc with
  | nil => exact fun h => .pure ⟨h, .refl _ _⟩
  | cons v loc ih =>
    intro s h
    refine .bind ((goes_vnodeUnref h).mono ?_)
    rintro - s1 ⟨h1, hq1⟩
    refine (ih h1).mono ?_
    rintro - s2 ⟨h2, hq2⟩
    exact ⟨h2, (hq1.mono fun u => List.Sublist.count_le u (sublist_append_right loc x)).trans
      h.fresh hq2⟩

/-- `walk_location`: one more reference if it succeeds, and the file that the
members' files lead to. -/
theorem goes_walkFrom (name : CStr) (loc : Location) :
    ∀ {s : State O} (rc : Errno), Acct K s x → (∀ v ∈ loc, s.InUse x v) →
      Goes (walkFrom K fs name rc loc) s fun r s' => Acct K s' (gained r ++ x) ∧ Quiet x s s' ∧
        ∀ look os, fs.Shows look → s.Files loc os → Stands s' r (lookFrom K look name rc os) := by
  induction loc with
  | nil =>
    intro s rc h _
    refine .pure ⟨h, .refl _ _, fun look os _ hos => ?_⟩
    cases hos
    rfl
  | cons v loc ih =>
    intro s rc h hl
    obtain ⟨n, hn, -⟩ := h.node (hl v mem_cons_self)
    have hl' : ∀ u ∈ loc, s.InUse x u := (forall_mem_cons.mp hl).2
    have hfile : ∀ {o : O}, s.fileOf v = some o → n.file = o := by
      intro o ho
      unfold State.fileOf at ho
      rw [hn] at ho
      exact Option.some.inj ho
    refine .gets_bind hn ?_
    by_cases hskip : (decide (K.type n.file ≠ .dir) || !K.hasWalk n.file) = true
    · rw [if_pos hskip]
      refine (ih rc h hl').mono ?_
      rintro r s' ⟨ha, hq, hs⟩
      refine ⟨ha, hq, fun look os hlook hos => ?_⟩
      cases hos with
      | cons ho hos =>
        rw [lookFrom, ← hfile ho, if_pos hskip]
        exact hs look _ hlook hos
    · rw [if_neg hskip]
      refine .bind ((goes_walk h hn name).mono ?_)
      rintro r s1 ⟨h1, hq1, hs1⟩
      cases r with
      | ok w =>
        refine .pure ⟨h1, hq1, fun look os hlook hos => ?_⟩
        cases hos with
        | cons ho hos =>
          obtain ⟨o', ho', hw⟩ := (hs1 look hlook).of_ok
          rw [lookFrom, ← hfile ho, if_neg hskip, ho']
          exact hw
      | error e =>
        have hl1 : ∀ u ∈ loc, s1.InUse x u := fun u hu => (hq1.inUse h.fresh).mpr (hl' u hu)
        refine (ih e h1 hl1).mono ?_
        rintro r s' ⟨ha, hq, hs⟩
        refine ⟨ha, hq1.trans h.fresh hq, fun look os hlook hos => ?_⟩
        cases hos with
        | cons ho hos =>
          rw [lookFrom, ← hfile ho, if_neg hskip, (hs1 look hlook).of_error]
          exact hs look _ hlook (.quiet hos hq1 hl')

end Walks

end ManiOS.Vfs
