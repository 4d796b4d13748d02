import ManiOS.Vfs.Tables

/-!
# Objects and their tables

Lemmas about stores to namespaces, mounts and open files.

`Edits` is a change of one namespace's table.  It keeps the tables right, and
touches that namespace only (`Local`): what the others have mounted, and the
files it stands for, stay.

Some code stores an object first and counts its references after, or gives the
references back before it frees the object.  The counts are wrong in between.
Since counting touches vnodes only (`NodeOnly`), it is as if the two had been
done in the other order.
-/

namespace ManiOS.Vfs

open ManiOS.Lib
open Function (update update_self update_of_ne)
open State (entry heldAt entry_of nextOf)

variable {O : Type}

/-! ## Stores to objects -/

variable (s : State O)

def State.withSpace (i : Nat) (n : Option Namespace) : State O :=
  { s with space := update s.space i n }

def State.withMount (p : Nat) (m : Option Mount) : State O :=
  { s with mount := update s.mount p m }

def State.withFile (f : Nat) (y : Option File) : State O :=
  { s with file := update s.file f y }

def State.withNodes (t : Nodes O) : State O := { s with node := t }

section Stores

variable {K : Kinds O} {s s' : State O} {x y : List Nat} {p : Nat} {post : Unit → State O → Prop}

theorem goes_setSpace {i : Nat} {n : Option Namespace}
    (h : post () (s.withSpace i n)) : Goes (setSpace i n) s post :=
  .modify h

theorem goes_setMount {m : Option Mount}
    (h : post () (s.withMount p m)) : Goes (setMount p m) s post :=
  .modify h

theorem goes_setFile {f : Nat} {z : Option File}
    (h : post () (s.withFile f z)) : Goes (setFile f z) s post :=
  .modify h

/-- One object changes what it holds, and `x` makes up for it. -/
theorem Acct.stored (h : Acct K s x) (hnode : s'.node = s.node) (hown : s'.own = s.own)
    (hbrk : s'.brk = s.brk) (hp : p < s.brk)
    (hne : ∀ q, q ≠ p → s'.space q = s.space q ∧ s'.mount q = s.mount q ∧ s'.file q = s.file q)
    (hsum : ∀ v, s'.heldAt p v + y.count v = s.heldAt p v + x.count v) : Acct K s' y where
  fresh q hq := by
    rw [hbrk] at hq
    obtain ⟨hs, hm, hf⟩ := hne q (ne_of_gt (lt_of_lt_of_le hp hq))
    rw [hs, hm, hf]
    exact h.fresh q hq
  bound v hv := by
    rw [hnode]
    exact h.bound v (hbrk ▸ hv)
  refs v := by
    have hr := h.refs v
    have hs := hsum v
    have hu : s'.held v + s.heldAt p v = s.held v + s'.heldAt p v := by
      refine held_update h.fresh (le_of_eq hbrk.symm) (hbrk ▸ hp) fun q hq => ?_
      obtain ⟨hs, hm, hf⟩ := hne q hq
      unfold heldAt
      rw [hs, hm, hf]
    have hrefs : s'.refs v = s.refs v ∧ s'.lent v = s.lent v := by
      unfold State.refs State.lent
      rw [hnode]
      exact ⟨rfl, rfl⟩
    rw [hown]
    omega
  kept v n hn := h.kept v n (hnode ▸ hn)
  plain v hv := by
    unfold State.lent
    rw [hnode]
    exact h.plain v hv

theorem Acct.withSpace {n : Option Namespace} (h : Acct K s x) (hp : p < s.brk)
    (hsum : ∀ v, n.elim 0 (fun n => if n.root = v then 1 else 0) + y.count v =
      (s.space p).elim 0 (fun n => if n.root = v then 1 else 0) + x.count v) :
    Acct K (s.withSpace p n) y := by
  refine h.stored rfl rfl rfl hp (fun q hq => ⟨update_of_ne hq _ _, rfl, rfl⟩) fun v => ?_
  have := hsum v
  simp only [heldAt, State.withSpace, update_self]
  omega

theorem Acct.withMount {m : Option Mount} (h : Acct K s x) (hp : p < s.brk)
    (hsum : ∀ v, m.elim 0 (fun m => m.loc.count v) + y.count v =
      (s.mount p).elim 0 (fun m => m.loc.count v) + x.count v) : Acct K (s.withMount p m) y := by
  refine h.stored rfl rfl rfl hp (fun q hq => ⟨rfl, update_of_ne hq _ _, rfl⟩) fun v => ?_
  have := hsum v
  simp only [heldAt, State.withMount, update_self]
  omega

theorem Acct.withFile {z : Option File} (h : Acct K s x) (hp : p < s.brk)
    (hsum : ∀ v, z.elim 0 (fun z => z.loc.count v) + y.count v =
      (s.file p).elim 0 (fun z => z.loc.count v) + x.count v) : Acct K (s.withFile p z) y := by
  refine h.stored rfl rfl rfl hp (fun q hq => ⟨rfl, rfl, update_of_ne hq _ _⟩) fun v => ?_
  have := hsum v
  simp only [heldAt, State.withFile, update_self]
  omega

theorem State.Fresh.lt (h : s.Fresh) (hp : s.space p ≠ none ∨ s.mount p ≠ none ∨ s.file p ≠ none) :
    p < s.brk := by
  by_contra hlt
  obtain ⟨hs, hm, hf⟩ := h p (not_lt.mp hlt)
  rcases hp with hp | hp | hp
  · exact hp hs
  · exact hp hm
  · exact hp hf

end Stores

/-! ## Programs on vnodes only -/

/-- A change of objects, whatever the vnodes are. -/
structure ObjectOnly (g : State O → State O) : Prop where
  node : ∀ s, (g s).node = s.node
  nodes : ∀ s t, g (s.withNodes t) = (g s).withNodes t

theorem objectOnly_withSpace (i : Nat) (n : Option Namespace) :
    ObjectOnly fun s : State O => s.withSpace i n := ⟨fun _ => rfl, fun _ _ => rfl⟩

theorem objectOnly_withMount (p : Nat) (m : Option Mount) :
    ObjectOnly fun s : State O => s.withMount p m := ⟨fun _ => rfl, fun _ _ => rfl⟩

theorem objectOnly_withFile (f : Nat) (z : Option File) :
    ObjectOnly fun s : State O => s.withFile f z := ⟨fun _ => rfl, fun _ _ => rfl⟩

/-- A program that reads and changes vnodes only. -/
def NodeOnly {α : Type} (m : Act (State O) α) : Prop :=
  ∀ s t : State O, t.node = s.node → m s = (m t).map fun r => (r.1, s.withNodes r.2.node)

namespace NodeOnly

variable {α β : Type} {m : Act (State O) α} {f : α → Act (State O) β} {K : Kinds O}

theorem pure (a : α) : NodeOnly (Pure.pure a : Act (State O) α) := by
  intro s t ht
  show some (a, s) = some (a, s.withNodes t.node)
  rw [ht]
  rfl

theorem bind (hm : NodeOnly m) (hf : ∀ a, NodeOnly (f a)) : NodeOnly (m >>= f) := by
  intro s t ht
  show (m s).bind _ = .map _ ((m t).bind _)
  rw [hm s t ht]
  cases hr : m t with
  | none => rfl
  | some r => exact hf r.1 (s.withNodes r.2.node) r.2 rfl

theorem gets (f : Nodes O → Option α) : NodeOnly (Act.gets fun s => f s.node) := by
  intro s t ht
  have hkeep : s.withNodes t.node = s := by
    rw [ht]
    rfl
  simp only [Act.gets, ht, Option.map_map]
  cases f s.node with
  | none => rfl
  | some a => exact congrArg (fun u => some (a, u)) hkeep.symm

theorem nodeAt (v : Nat) : NodeOnly (Vfs.nodeAt v : Act (State O) (Vnode O)) :=
  gets fun t => t v

theorem setNode (v : Nat) (n : Option (Vnode O)) : NodeOnly (Vfs.setNode v n) := by
  intro s t ht
  simp only [Vfs.setNode, Act.modify, State.withNodes, ht, Option.map_some]

theorem wrong : NodeOnly (Act.wrong : Act (State O) α) := fun _ _ _ => rfl

theorem vnodeRef (v : Nat) : NodeOnly (Vfs.vnodeRef v : Act (State O) Unit) :=
  bind (nodeAt v) fun _ => setNode v _

theorem sessionUnref (v : Nat) : NodeOnly (Vfs.sessionUnref K v) := by
  refine bind (gets fun t => some (channelAt K t v)) fun r => ?_
  cases r with
  | none => exact pure ()
  | some wn => exact setNode wn.1 _

theorem vnodeUnref (v : Nat) : NodeOnly (Vfs.vnodeUnref K v) := by
  refine bind (nodeAt v) fun n => ?_
  split
  next => exact wrong
  next =>
    refine bind (setNode v _) fun _ => ?_
    split
    next => exact sessionUnref v
    next => exact pure ()

theorem locationRef (loc : Location) : NodeOnly (Vfs.locationRef loc : Act (State O) Unit) := by
  induction loc with
  | nil => exact pure ()
  | cons v loc ih => exact bind (vnodeRef v) fun _ => ih

theorem locationRelease (loc : Location) : NodeOnly (Vfs.locationRelease K loc) := by
  induction loc with
  | nil => exact pure ()
  | cons v loc ih => exact bind (vnodeUnref v) fun _ => ih

theorem result (hm : NodeOnly m) {s s' : State O} {a : α} (h : m s = some (a, s')) :
    s' = s.withNodes s'.node := by
  have hs := hm s s rfl
  rw [h] at hs
  exact congrArg Prod.snd (Option.some.inj hs)

/-- A change of objects before it may as well come after it. -/
theorem after (hm : NodeOnly m) {g : State O → State O} (hg : ObjectOnly g) {s : State O}
    {post : α → State O → Prop} (h : Goes m s fun a s' => post a (g s')) : Goes m (g s) post := by
  obtain ⟨a, s', hrun, hp⟩ := h
  refine ⟨a, g s', ?_, hp⟩
  rw [hm (g s) s (hg.node s).symm, hrun, hm.result hrun, hg.nodes]
  rfl

theorem before (hm : NodeOnly m) {g : State O → State O} (hg : ObjectOnly g) {s : State O}
    {post : α → State O → Prop} (h : Goes m (g s) post) : Goes m s fun a s' => post a (g s') := by
  obtain ⟨a, s', hrun, hp⟩ := h
  refine ⟨a, s.withNodes s'.node, ?_, ?_⟩
  · rw [hm s (g s) (hg.node s), hrun]
    rfl
  · show post a (g (s.withNodes s'.node))
    rw [hg.nodes, ← hm.result hrun]
    exact hp

end NodeOnly

/-! ## What a change leaves alone -/

/-- Namespaces and open files have references. -/
structure Alive (s : State O) : Prop where
  space : ∀ i n, s.space i = some n → 0 < n.refs
  file : ∀ f z, s.file f = some z → 0 < z.refs

/-- The tables are those of `tbl`, and the counts are right. -/
structure Sound (K : Kinds O) (s : State O) (tbl : Nat → List Nat) (x : List Nat) : Prop where
  rep : Rep s tbl
  acct : Acct K s x
  alive : Alive s

/-- A vnode is the root of a namespace, or a member of one of its mounts. -/
def State.HeldBy (tbl : Nat → List Nat) (j v : Nat) : Prop :=
  (∃ n, s.space j = some n ∧ n.root = v) ∨ ∃ p ∈ tbl j, v ∈ (s.entry p).2

/-- A namespace has the same root, the same mounts, and the same files in
them. -/
structure Keeps (j : Nat) (s : State O) (tbl : Nat → List Nat) (s' : State O)
    (tbl' : Nat → List Nat) : Prop where
  root : (s'.space j).map Namespace.root = (s.space j).map Namespace.root
  table : tbl' j = tbl j
  entry : ∀ p ∈ tbl j, s'.entry p = s.entry p
  files : ∀ v, s.HeldBy tbl j v → s'.fileOf v = s.fileOf v

/-- Only the namespace `i` changed. -/
structure Local (i : Nat) (s : State O) (tbl : Nat → List Nat) (s' : State O)
    (tbl' : Nat → List Nat) : Prop where
  own : s'.own = s.own
  made : s'.made = s.made
  file : s'.file = s.file
  space : ∀ j, j ≠ i → s'.space j = s.space j
  keeps : ∀ j, j ≠ i → Keeps j s tbl s' tbl'

section Leaves

variable {K : Kinds O} {s s' s'' : State O} {tbl tbl' tbl'' : Nat → List Nat} {x : List Nat}
  {i j v : Nat}

theorem Keeps.refl (j : Nat) (s : State O) (tbl : Nat → List Nat) : Keeps j s tbl s tbl :=
  ⟨rfl, rfl, fun _ _ => rfl, fun _ _ => rfl⟩

theorem Keeps.heldBy (h : Keeps j s tbl s' tbl') (hv : s.HeldBy tbl j v) : s'.HeldBy tbl' j v := by
  rcases hv with ⟨n, hn, hroot⟩ | ⟨p, hp, hv⟩
  · have hr := h.root
    rw [hn] at hr
    obtain ⟨n', hn', hr'⟩ := Option.map_eq_some_iff.mp hr
    exact .inl ⟨n', hn', hr'.trans hroot⟩
  · exact .inr ⟨p, h.table ▸ hp, (h.entry p hp).symm ▸ hv⟩

theorem Keeps.trans (h : Keeps j s tbl s' tbl') (h' : Keeps j s' tbl' s'' tbl'') :
    Keeps j s tbl s'' tbl'' where
  root := h'.root.trans h.root
  table := h'.table.trans h.table
  entry p hp := (h'.entry p (h.table ▸ hp)).trans (h.entry p hp)
  files v hv := (h'.files v (h.heldBy hv)).trans (h.files v hv)

theorem State.HeldBy.inUse (hf : s.Fresh) (h : s.HeldBy tbl j v) : s.InUse x v := by
  rcases h with ⟨n, hn, rfl⟩ | ⟨p, -, hv⟩
  · exact inUse_root hf hn
  · cases hm : s.mount p with
    | none =>
      unfold entry at hv
      rw [hm] at hv
      cases hv
    | some m =>
      rw [entry_of hm] at hv
      exact inUse_mount hf hm hv

theorem Quiet.keeps (h : Quiet x s s') (hf : s.Fresh) (tbl : Nat → List Nat) (j : Nat) :
    Keeps j s tbl s' tbl where
  root := by rw [h.space]
  table := rfl
  entry p _ := by
    unfold entry
    rw [h.mount]
  files v hv := h.kept v (hv.inUse hf)

theorem Quiet.alive (h : Quiet x s s') (ha : Alive s) : Alive s' :=
  ⟨fun i n hn => ha.space i n (h.space ▸ hn), fun f z hz => ha.file f z (h.file ▸ hz)⟩

theorem Quiet.sound {y z : List Nat} (h : Quiet x s s') (hs : Sound K s tbl y) (ha : Acct K s' z) :
    Sound K s' tbl z :=
  ⟨hs.rep.quiet h, ha, h.alive hs.alive⟩

theorem Local.refl (i : Nat) (s : State O) (tbl : Nat → List Nat) : Local i s tbl s tbl :=
  ⟨rfl, rfl, rfl, fun _ _ => rfl, fun j _ => .refl j s tbl⟩

theorem Local.trans (h : Local i s tbl s' tbl') (h' : Local i s' tbl' s'' tbl'') :
    Local i s tbl s'' tbl'' where
  own := h'.own.trans h.own
  made := h'.made.trans h.made
  file := h'.file.trans h.file
  space j hj := (h'.space j hj).trans (h.space j hj)
  keeps j hj := (h.keeps j hj).trans (h'.keeps j hj)

theorem Quiet.isLocal (h : Quiet x s s') (hf : s.Fresh) (tbl : Nat → List Nat) (i : Nat) :
    Local i s tbl s' tbl := { h with
  space j _ := by rw [h.space]
  keeps j _ := h.keeps hf tbl j }

end Leaves

/-! ## Changes to one table -/

/-- The table of one namespace becomes `l`, instead of `old`.  Vnodes stay. -/
structure Edits (i : Nat) (old l : List Nat) (s s' : State O) : Prop where
  node : s'.node = s.node
  own : s'.own = s.own
  made : s'.made = s.made
  file : s'.file = s.file
  space : ∀ j, j ≠ i → s'.space j = s.space j
  mount : ∀ p, p ∉ old → p ∉ l → s'.mount p = s.mount p
  gone : ∀ p ∈ old, p ∉ l → s'.mount p = none
  fresh : ∀ p ∈ l, p ∈ old ∨ s.mount p = none
  there : ∀ p ∈ l, ∃ m, s'.mount p = some m ∧ Sized m.loc
  linked : ∀ n, s'.space i = some n → Linked s'.nextOf n.mounts l
  unused : s'.space i = none → l = []

section Edits

variable {K : Kinds O} {s s' : State O} {tbl : Nat → List Nat} {x l : List Nat} {i : Nat}

theorem Edits.other (he : Edits i (tbl i) l s s') (h : Rep s tbl) {j p : Nat} (hj : j ≠ i)
    (hp : p ∈ tbl j) : p ∉ l ∧ s'.mount p = s.mount p := by
  have hold : p ∉ tbl i := fun hi => hj (h.apart j i p hp hi)
  have hl : p ∉ l := by
    intro hl
    obtain ⟨m, hm⟩ := h.there j p hp
    rcases he.fresh p hl with hc | hc
    · exact hold hc
    · rw [hc] at hm
      cases hm
  exact ⟨hl, he.mount p hold hl⟩

theorem Rep.edit (h : Rep s tbl) (he : Edits i (tbl i) l s s') : Rep s' (update tbl i l) where
  linked j n hn := by
    by_cases hj : j = i
    · subst hj
      rw [update_self]
      exact he.linked n hn
    · rw [update_of_ne hj]
      rw [he.space j hj] at hn
      refine (h.linked j n hn).congr fun p hp => ?_
      unfold nextOf
      rw [(he.other h hj hp).2]
  unused j hn := by
    by_cases hj : j = i
    · subst hj
      rw [update_self]
      exact he.unused hn
    · rw [update_of_ne hj]
      exact h.unused j (he.space j hj ▸ hn)
  there j p hp := by
    by_cases hj : j = i
    · subst hj
      rw [update_self] at hp
      obtain ⟨m, hm, -⟩ := he.there p hp
      exact ⟨m, hm⟩
    · rw [update_of_ne hj] at hp
      rw [(he.other h hj hp).2]
      exact h.there j p hp
  apart j k p hj hk := by
    by_cases hji : j = i
    · by_cases hki : k = i
      · rw [hji, hki]
      · rw [update_of_ne hki] at hk
        rw [hji, update_self] at hj
        exact absurd hj (he.other h hki hk).1
    · rw [update_of_ne hji] at hj
      by_cases hki : k = i
      · rw [hki, update_self] at hk
        exact absurd hk (he.other h hji hj).1
      · rw [update_of_ne hki] at hk
        exact h.apart j k p hj hk
  listed p m hm := by
    by_cases hl : p ∈ l
    · exact ⟨i, by rwa [update_self]⟩
    · by_cases hold : p ∈ tbl i
      · rw [he.gone p hold hl] at hm
        cases hm
      · rw [he.mount p hold hl] at hm
        obtain ⟨j, hj⟩ := h.listed p m hm
        have hji : j ≠ i := by
          rintro rfl
          exact hold hj
        exact ⟨j, by rwa [update_of_ne hji]⟩
  mountLoc p m hm := by
    by_cases hl : p ∈ l
    · obtain ⟨m', hm', hs⟩ := he.there p hl
      rw [hm] at hm'
      cases hm'
      exact hs
    · by_cases hold : p ∈ tbl i
      · rw [he.gone p hold hl] at hm
        cases hm
      · exact h.mountLoc p m (he.mount p hold hl ▸ hm)
  fileLoc f z hz := h.fileLoc f z (he.file ▸ hz)

theorem Edits.isLocal (he : Edits i (tbl i) l s s') (h : Rep s tbl) :
    Local i s tbl s' (update tbl i l) := { he with
  keeps j hj := {
    root := by rw [he.space j hj]
    table := update_of_ne hj _ _
    entry := fun p hp => by
      unfold entry
      rw [(he.other h hj hp).2]
    files := fun v _ => by
      unfold State.fileOf
      rw [he.node] } }

end Edits

/-! ## Stores to links -/

def State.link (i : Nat) (prev v : Option Nat) : State O :=
  match prev with
  | none => s.withSpace i ((s.space i).map fun n => { n with mounts := v })
  | some q => s.withMount q ((s.mount q).map fun m => { m with next := v })

section Link

variable {K : Kinds O} {s : State O} {x : List Nat} {i j p : Nat} {n : Namespace} {m : Mount}
  {prev v : Option Nat}

theorem goes_storeLink (hn : s.space i = some n)
    (hprev : ∀ q, prev = some q → ∃ m, s.mount q = some m) {post : Unit → State O → Prop}
    (h : post () (s.link i prev v)) : Goes (storeLink i prev v) s post := by
  unfold State.link at h
  cases prev with
  | none =>
    rw [hn] at h
    exact .gets_bind hn (goes_setSpace h)
  | some q =>
    obtain ⟨m, hm⟩ := hprev q rfl
    simp only [hm] at h
    exact .gets_bind hm (goes_setMount h)

theorem link_node : (s.link i prev v).node = s.node := by cases prev <;> rfl

theorem link_own : (s.link i prev v).own = s.own := by cases prev <;> rfl

theorem link_made : (s.link i prev v).made = s.made := by cases prev <;> rfl

theorem link_file : (s.link i prev v).file = s.file := by cases prev <;> rfl

theorem link_nextOf (hprev : ∀ q, prev = some q → ∃ m, s.mount q = some m) :
    (s.link i prev v).nextOf = relink s.nextOf prev v := by
  cases prev with
  | none => rfl
  | some q =>
    obtain ⟨m, hm⟩ := hprev q rfl
    funext p
    unfold nextOf State.link State.withMount relink
    by_cases hp : p = q
    · subst hp
      simp [hm]
    · simp [update_of_ne hp]

theorem link_space_self (hn : s.space i = some n) :
    (s.link i prev v).space i = some { n with mounts := rehead n.mounts prev v } := by
  cases prev with
  | none => simp [State.link, State.withSpace, hn]
  | some q => exact hn

theorem link_space_of_ne (hj : j ≠ i) : (s.link i prev v).space j = s.space j := by
  cases prev with
  | none => exact update_of_ne hj _ _
  | some q => rfl

theorem link_mount_of_ne (hp : prev ≠ some p) : (s.link i prev v).mount p = s.mount p := by
  cases prev with
  | none => rfl
  | some q => exact update_of_ne (fun he : p = q => hp (congrArg some he.symm)) _ _

theorem link_mount (hm : s.mount p = some m) :
    ∃ k, (s.link i prev v).mount p = some { m with next := k } := by
  by_cases hp : prev = some p
  · subst hp
    exact ⟨v, by simp [State.link, State.withMount, hm]⟩
  · exact ⟨m.next, by rw [link_mount_of_ne hp, hm]⟩

theorem link_entry : (s.link i prev v).entry p = s.entry p := by
  cases hm : s.mount p with
  | some m =>
    obtain ⟨k, hk⟩ := link_mount hm
    rw [entry_of hm, entry_of hk]
  | none =>
    have hnone : (s.link i prev v).mount p = none := by
      by_cases hp : prev = some p
      · subst hp
        simp [State.link, State.withMount, hm]
      · rw [link_mount_of_ne hp, hm]
    unfold entry
    rw [hnone, hm]

theorem Acct.link (h : Acct K s x) (hn : s.space i = some n)
    (hprev : ∀ q, prev = some q → ∃ m, s.mount q = some m) : Acct K (s.link i prev v) x := by
  cases prev with
  | none =>
    refine h.withSpace (h.fresh.lt (.inl (by simp [hn]))) fun u => ?_
    rw [hn]
    rfl
  | some q =>
    obtain ⟨m, hm⟩ := hprev q rfl
    refine h.withMount (h.fresh.lt (.inr (.inl (by simp [hm])))) fun u => ?_
    rw [hm]
    rfl

end Link

end ManiOS.Vfs
