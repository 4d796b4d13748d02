import ManiOS.Fat.Contents

/-!
# Well-formed volumes

What a volume says about its files and directories is a tree: a table of
successors, and for every directory and slot the entry there, if it is one of a
file or a directory (`Tree`).  A directory is named by its first cluster, the
root by `none`, and only what an entry of a directory leads to is a directory
(`Tree.IsDir`).

A tree is *sound* when the chains of its entries are in order and disjoint, and
every cluster in use is on one of them, and *sized* when each file has as many
clusters as its size needs.  In the middle of an operation some clusters are
taken and on no chain yet; soundness names them.  `Tree.Update` is a change of
one entry and of the chain it owns.  Everything the operations of `fat.c` do to
a volume is a sequence of such changes, and `Update.sound` says they keep a
tree sound.
-/

namespace ManiOS.Fat

open ManiOS.Lib List

/-- What an entry says about the file or directory it names. -/
structure Entry where
  dir : Bool
  first : Nat
  size : Nat
deriving DecidableEq, Repr

/-- The directory an entry leads to. -/
def Entry.link (e : Entry) : Option Nat := if e.dir then some e.first else none

/-- Successors of clusters, and the entry at each slot of each directory. -/
structure Tree where
  next : Nat → Nat
  entry : Option Nat → Nat → Option Entry

/-- Directories: the root, and what a directory's entries lead to. -/
inductive Tree.IsDir (t : Tree) : Option Nat → Prop
  | root : t.IsDir none
  | sub {p : Option Nat} {i : Nat} {e : Entry} (hp : t.IsDir p) (he : t.entry p i = some e)
      (hd : e.dir = true) : t.IsDir (some e.first)

/-- The clusters of `l` in a row, the last one marked as the end. -/
abbrev Tree.IsChain (g : Geometry) (t : Tree) (l : List Nat) : Prop :=
  Chain t.next (fun c => validCluster g c = true) (fun x => isEndOfChain g x = true) l

/-- Slot `i` of directory `p` holds `e`, whose chain is `l`. -/
structure Tree.Holds (g : Geometry) (t : Tree) (p : Option Nat) (i : Nat) (e : Entry)
    (l : List Nat) : Prop where
  dir : t.IsDir p
  entry : t.entry p i = some e
  chain : t.IsChain g l
  first : e.first = l.headD 0

/-- Every chain in order, no two sharing a cluster, and no cluster in use
without an owner, except those of `z`, which are on no chain.  `0xFFF7` marks a
bad cluster. -/
structure Tree.Sound (g : Geometry) (t : Tree) (z : List Nat) : Prop where
  chains : ∀ p i e, t.IsDir p → t.entry p i = some e →
    ∃ l, t.IsChain g l ∧ e.first = l.headD 0 ∧ (e.dir = true → l ≠ [])
  disjoint : ∀ p i e l p' i' e' l', t.Holds g p i e l → t.Holds g p' i' e' l' →
    (p, i) ≠ (p', i') → List.Disjoint l l'
  owned : ∀ c, validCluster g c = true → t.next c ≠ 0 → t.next c ≠ 0xFFF7 →
    c ∈ z ∨ ∃ p i e l, t.Holds g p i e l ∧ c ∈ l
  loose : ∀ c ∈ z, ∀ p i e l, t.Holds g p i e l → c ∉ l

/-- Every file has the clusters its size needs. -/
def Tree.Sized (g : Geometry) (t : Tree) : Prop :=
  ∀ p i e l, t.Holds g p i e l → e.dir = false →
    l.length = (e.size + g.bytesPerCluster - 1) / g.bytesPerCluster

/-- `l` is the chain of the entry, if there is one. -/
def Tree.ChainOf (g : Geometry) (t : Tree) : Option Entry → List Nat → Prop
  | none, l => l = []
  | some e, l => t.IsChain g l ∧ e.first = l.headD 0 ∧ (e.dir = true → l ≠ [])

/-- How a changed entry may differ from the old one as far as directories go:
not at all, an empty directory gone, or an empty one new. -/
inductive Tree.Relink (t t' : Tree) (o o' : Option Entry) : Prop
  | same (h : o.bind Entry.link = o'.bind Entry.link)
  | gone {c : Nat} (ho : o.bind Entry.link = some c) (ho' : o' = none)
      (hempty : ∀ i, t.entry (some c) i = none)
  | new {c : Nat} (ho : o = none) (ho' : o'.bind Entry.link = some c)
      (hempty : ∀ i, t'.entry (some c) i = none)

/-- `t'` is `t` with one entry changed from `o` to `o'`, the chain it owns from
`l` to `l'`, and the clusters on no chain from `z` to `z'`. -/
structure Tree.Update (g : Geometry) (t t' : Tree) (p : Option Nat) (i : Nat)
    (o o' : Option Entry) (l l' z z' : List Nat) : Prop where
  dir : t.IsDir p
  old : t.entry p i = o
  new : t'.entry p i = o'
  oldChain : t.ChainOf g o l
  newChain : t'.ChainOf g o' l'
  others : ∀ q j, t.IsDir q → (q, j) ≠ (p, i) → t'.entry q j = t.entry q j
  outside : ∀ c, c ∉ l ++ z → c ∉ l' ++ z' → t'.next c = t.next c
  freed : ∀ c ∈ l ++ z, c ∉ l' ++ z' → t'.next c = 0
  taken : ∀ c ∈ l' ++ z', c ∉ l ++ z → t.next c = 0
  apart : List.Disjoint l' z'
  relink : Tree.Relink t t' o o'

section Trees

variable {g : Geometry} {t t' : Tree} {p q : Option Nat} {i j : Nat} {o o' : Option Entry}
  {e : Entry} {l l' x z z' : List Nat}

variable {c : Nat}

theorem Entry.link_eq_some (h : e.link = some c) : e.dir = true ∧ e.first = c := by
  unfold Entry.link at h
  split at h
  next hd => exact ⟨hd, Option.some.inj h⟩
  next => cases h

theorem Entry.link_of_dir (h : e.dir = true) : e.link = some e.first := if_pos h

theorem Tree.IsDir.link (hp : t.IsDir p)
    (h : (t.entry p i).bind Entry.link = some c) : t.IsDir (some c) := by
  obtain ⟨e, he, hl⟩ := Option.bind_eq_some_iff.mp h
  obtain ⟨hd, rfl⟩ := Entry.link_eq_some hl
  exact .sub hp he hd

theorem Tree.IsDir.named (h : t.IsDir (some c)) :
    ∃ p i e, t.IsDir p ∧ t.entry p i = some e ∧ e.dir = true ∧ e.first = c := by
  cases h with
  | sub hp he hd => exact ⟨_, _, _, hp, he, hd, rfl⟩

theorem Tree.Holds.head_eq (h : t.Holds g p i e l) (hne : l ≠ []) : l.head? = some e.first := by
  rw [h.first]
  cases l with
  | nil => exact absurd rfl hne
  | cons a l => rfl

theorem Tree.Holds.first_mem (h : t.Holds g p i e l) (hne : l ≠ []) : e.first ∈ l :=
  mem_of_mem_head? (h.head_eq hne)

namespace Tree.Sound

theorem holds (h : t.Sound g z) (hp : t.IsDir p) (he : t.entry p i = some e) :
    ∃ l, t.Holds g p i e l ∧ (e.dir = true → l ≠ []) := by
  obtain ⟨l, hl, hfirst, hne⟩ := h.chains p i e hp he
  exact ⟨l, ⟨hp, he, hl, hfirst⟩, hne⟩

theorem same_slot (h : t.Sound g z) {i' : Nat} {e' : Entry} (hh : t.Holds g p i e l)
    (hh' : t.Holds g q i' e' l') (hc : c ∈ l) (hc' : c ∈ l') : (p, i) = (q, i') := by
  by_contra hne
  exact h.disjoint _ _ _ _ _ _ _ _ hh hh' hne hc hc'

theorem dirChain (h : t.Sound g z) (hc : t.IsDir (some c)) :
    ∃ p i e l, t.Holds g p i e l ∧ e.dir = true ∧ e.first = c ∧ c ∈ l := by
  obtain ⟨p, i, e, hp, he, hd, rfl⟩ := hc.named
  obtain ⟨l, hh, hne⟩ := h.holds hp he
  exact ⟨p, i, e, l, hh, hd, rfl, hh.first_mem (hne hd)⟩

end Tree.Sound

theorem chain_unique (hg : g.Usable) (hl : t.IsChain g l) (hx : t.IsChain g x)
    (he : l.headD 0 = x.headD 0) : l = x := by
  refine Chain.unique (not_end_of_valid hg) hl hx ?_
  cases l with
  | nil =>
    cases x with
    | nil => rfl
    | cons b x => exact absurd he.symm (validCluster_ne_zero (hx.cells b mem_cons_self))
  | cons a l =>
    cases x with
    | nil => exact absurd he (validCluster_ne_zero (hl.cells a mem_cons_self))
    | cons b x => exact congrArg some he

theorem Tree.Holds.unique (hg : g.Usable) (h : t.Holds g p i e l) (h' : t.Holds g p i e x) :
    l = x :=
  chain_unique hg h.chain h'.chain (h.first.symm.trans h'.first)

/-! ## One changed entry -/

namespace Tree.Update

variable (u : Tree.Update g t t' p i o o' l l' z z')
include u

theorem link_old (h : o.bind Entry.link = some c) : t.IsDir (some c) :=
  u.dir.link (u.old ▸ h)

/-- Directories of the changed tree: those of the old one, and perhaps a new one
with nothing in it. -/
theorem isDir_old (hq : t'.IsDir q) : t.IsDir q ∨ ∀ j, t'.entry q j = none := by
  induction hq with
  | root => exact .inl .root
  | @sub q j e hq he hd ih =>
    rcases ih with hqd | hempty
    · by_cases hslot : (q, j) = (p, i)
      · cases hslot
        have hlink : o'.bind Entry.link = some e.first := by
          rw [← u.new, he]
          exact Entry.link_of_dir hd
        cases u.relink with
        | same h => exact .inl (u.link_old (h.trans hlink))
        | gone _ ho' _ =>
          rw [ho'] at hlink
          cases hlink
        | new _ ho' hempty =>
          rw [ho'] at hlink
          cases hlink
          exact .inr hempty
      · rw [u.others q j hqd hslot] at he
        exact .inl (.sub hqd he hd)
    · rw [hempty j] at he
      cases he

/-- Directories of the old tree: those of the changed one, and perhaps one with
nothing in it that is gone. -/
theorem isDir_new (hq : t.IsDir q) : t'.IsDir q ∨ (o ≠ none ∧ ∀ j, t.entry q j = none) := by
  induction hq with
  | root => exact .inl .root
  | @sub q j e hq he hd ih =>
    rcases ih with hqd | ⟨-, hempty⟩
    · by_cases hslot : (q, j) = (p, i)
      · cases hslot
        have hlink : o.bind Entry.link = some e.first := by
          rw [← u.old, he]
          exact Entry.link_of_dir hd
        cases u.relink with
        | same h =>
          refine .inl (hqd.link (i := i) ?_)
          rw [u.new, ← h, hlink]
        | gone ho _ hempty =>
          rw [ho] at hlink
          cases hlink
          refine .inr ⟨fun hnone => ?_, hempty⟩
          rw [hnone] at ho
          cases ho
        | new ho _ _ =>
          rw [ho] at hlink
          cases hlink
      · rw [← u.others q j hq hslot] at he
        exact .inl (.sub hqd he hd)
    · rw [hempty j] at he
      cases he

theorem dir_new : t'.IsDir p := by
  rcases u.isDir_new u.dir with h | ⟨ho, hempty⟩
  · exact h
  · exact absurd (u.old.symm.trans (hempty i)) ho

theorem entry_old (hq : t'.IsDir q) (he : t'.entry q j = some e) (hne : (q, j) ≠ (p, i)) :
    t.IsDir q ∧ t.entry q j = some e := by
  rcases u.isDir_old hq with hqd | hempty
  · exact ⟨hqd, (u.others q j hqd hne).symm.trans he⟩
  · rw [hempty j] at he
    cases he

theorem entry_new (hq : t.IsDir q) (he : t.entry q j = some e) (hne : (q, j) ≠ (p, i)) :
    t'.IsDir q ∧ t'.entry q j = some e := by
  rcases u.isDir_new hq with hqd | ⟨-, hempty⟩
  · exact ⟨hqd, (u.others q j hq hne).trans he⟩
  · rw [hempty j] at he
    cases he

theorem holds_self {e' : Entry} (ho' : o' = some e') : t'.Holds g p i e' l' := by
  have hchain := u.newChain
  have hnew := u.new
  subst ho'
  exact ⟨u.dir_new, hnew, hchain.1, hchain.2.1⟩

section Sound

variable (hs : t.Sound g z)
include hs

theorem chain_apart (hh : t.Holds g q j e x) (hne : (q, j) ≠ (p, i)) (hc : c ∈ x) :
    c ∉ l ++ z ∧ c ∉ l' ++ z' := by
  have hl : c ∉ l ++ z := by
    intro hmem
    rcases mem_append.mp hmem with hcl | hcz
    · have hold := u.old
      have hchain := u.oldChain
      cases o with
      | none =>
        rw [show l = [] from hchain] at hcl
        cases hcl
      | some e0 =>
        exact hs.disjoint _ _ _ _ _ _ _ _ hh ⟨u.dir, hold, hchain.1, hchain.2.1⟩ hne hc hcl
    · exact hs.loose c hcz _ _ _ _ hh hc
  refine ⟨hl, fun hcl' => ?_⟩
  have hfree := u.taken c hcl' hl
  rcases hh.chain.next_valid_or_stop hc with hv | hstop
  · rw [hfree] at hv
    exact validCluster_ne_zero hv rfl
  · exact zero_not_end g (hfree ▸ hstop)

theorem holds_new (hh : t.Holds g q j e x) (hne : (q, j) ≠ (p, i)) : t'.Holds g q j e x := by
  obtain ⟨hqd, he⟩ := u.entry_new hh.dir hh.entry hne
  refine ⟨hqd, he, hh.chain.congr fun c hc => ?_, hh.first⟩
  obtain ⟨hl, hl'⟩ := u.chain_apart hs hh hne hc
  exact u.outside c hl hl'

end Sound

section Regular

variable (hg : g.Usable) (hs : t.Sound g z)
include hg hs

theorem holds_old (hh : t'.Holds g q j e x) (hne : (q, j) ≠ (p, i)) : t.Holds g q j e x := by
  obtain ⟨hqd, he⟩ := u.entry_old hh.dir hh.entry hne
  obtain ⟨y, hy, -⟩ := hs.holds hqd he
  rw [Tree.Holds.unique hg hh (u.holds_new hs hy hne)]
  exact hy

theorem sound : t'.Sound g z' where
  chains q j e hq he := by
    by_cases hslot : (q, j) = (p, i)
    · cases hslot
      have hchain := u.newChain
      rw [u.new] at he
      subst he
      exact ⟨l', hchain.1, hchain.2.1, hchain.2.2⟩
    · obtain ⟨hqd, hold⟩ := u.entry_old hq he hslot
      obtain ⟨y, hy, hne⟩ := hs.holds hqd hold
      have hy' := u.holds_new hs hy hslot
      exact ⟨y, hy'.chain, hy'.first, hne⟩
  disjoint q j e x q' j' e' x' hh hh' hne := by
    -- the changed entry owns the new chain, which meets no other
    have hself : ∀ {q j e x q' j' e' x'}, t'.Holds g q j e x → t'.Holds g q' j' e' x' →
        (q, j) ≠ (q', j') → (q, j) = (p, i) → List.Disjoint x x' := by
      intro q j e x q' j' e' x' hh hh' hne hslot
      cases hslot
      have hx : x = l' := Tree.Holds.unique hg hh (u.holds_self (u.new.symm.trans hh.entry))
      intro c hc hc'
      exact (u.chain_apart hs (u.holds_old hg hs hh' (.symm hne)) (.symm hne) hc').2
        (mem_append_left z' (hx ▸ hc))
    by_cases hslot : (q, j) = (p, i)
    · exact hself hh hh' hne hslot
    · by_cases hslot' : (q', j') = (p, i)
      · exact fun c hc hc' => hself hh' hh (.symm hne) hslot' hc' hc
      · exact hs.disjoint _ _ _ _ _ _ _ _ (u.holds_old hg hs hh hslot)
          (u.holds_old hg hs hh' hslot') hne
  owned c hc hne0 hbad := by
    by_cases hz' : c ∈ z'
    · exact .inl hz'
    right
    by_cases hl' : c ∈ l'
    · obtain ⟨e', he'⟩ : ∃ e', o' = some e' := by
        cases ho' : o' with
        | none =>
          have hchain := u.newChain
          rw [ho'] at hchain
          rw [show l' = [] from hchain] at hl'
          cases hl'
        | some e' => exact ⟨e', rfl⟩
      exact ⟨p, i, e', l', u.holds_self he', hl'⟩
    · have hnew : c ∉ l' ++ z' := fun h => (mem_append.mp h).elim hl' hz'
      by_cases hl : c ∈ l ++ z
      · exact absurd (u.freed c hl hnew) hne0
      · rw [u.outside c hl hnew] at hne0 hbad
        rcases hs.owned c hc hne0 hbad with hz | ⟨q, j, e, x, hh, hmem⟩
        · exact absurd (mem_append_right l hz) hl
        refine ⟨q, j, e, x, u.holds_new hs hh ?_, hmem⟩
        intro hslot
        cases hslot
        -- the owner is the changed entry, so `c` is on its old chain
        have hold := u.old
        have hchain := u.oldChain
        rw [hh.entry] at hold
        subst hold
        have hx := chain_unique hg hh.chain hchain.1 (hh.first.symm.trans hchain.2.1)
        exact hl (mem_append_left z (hx ▸ hmem))
  loose c hc q j e x hh hmem := by
    by_cases hslot : (q, j) = (p, i)
    · cases hslot
      have hx := Tree.Holds.unique hg hh (u.holds_self (u.new.symm.trans hh.entry))
      exact u.apart (hx ▸ hmem) hc
    · exact (u.chain_apart hs (u.holds_old hg hs hh hslot) hslot hmem).2 (mem_append_right l' hc)

theorem sized (hz : t.Sized g) (hself : ∀ e', o' = some e' → e'.dir = false →
    l'.length = (e'.size + g.bytesPerCluster - 1) / g.bytesPerCluster) : t'.Sized g := by
  intro q j e x hh hd
  by_cases hslot : (q, j) = (p, i)
  · cases hslot
    have ho' := u.new.symm.trans hh.entry
    rw [Tree.Holds.unique hg hh (u.holds_self ho')]
    exact hself e ho' hd
  · exact hz q j e x (u.holds_old hg hs hh hslot) hd

end Regular

end Tree.Update

end Trees

/-! ## Trees that say the same -/

/-- The same successors, and the same entries in every directory. -/
structure Tree.Agree (t t' : Tree) : Prop where
  next : ∀ c, t'.next c = t.next c
  entry : ∀ p i, t.IsDir p → t'.entry p i = t.entry p i

section Agreement

variable {g : Geometry} {t t' : Tree} {p : Option Nat} {i : Nat} {e : Entry} {l z : List Nat}

theorem Tree.Agree.isDir (h : t.Agree t') : t'.IsDir p ↔ t.IsDir p := by
  constructor
  · intro hp
    induction hp with
    | root => exact .root
    | sub hp he hd ih => exact .sub ih ((h.entry _ _ ih).symm.trans he) hd
  · intro hp
    induction hp with
    | root => exact .root
    | sub hp he hd ih => exact .sub ih ((h.entry _ _ hp).trans he) hd

theorem Tree.Agree.holds (h : t.Agree t') : t'.Holds g p i e l ↔ t.Holds g p i e l := by
  constructor
  · rintro ⟨hd, he, hc, hf⟩
    have hp := h.isDir.mp hd
    exact ⟨hp, (h.entry p i hp).symm.trans he, hc.congr fun c _ => (h.next c).symm, hf⟩
  · rintro ⟨hd, he, hc, hf⟩
    exact ⟨h.isDir.mpr hd, (h.entry p i hd).trans he, hc.congr fun c _ => h.next c, hf⟩

theorem Tree.Agree.sound (h : t.Agree t') (hs : t.Sound g z) : t'.Sound g z where
  chains p i e hp he := by
    have hp' := h.isDir.mp hp
    obtain ⟨l, hl, hf, hne⟩ := hs.chains p i e hp' ((h.entry p i hp').symm.trans he)
    exact ⟨l, hl.congr fun c _ => h.next c, hf, hne⟩
  disjoint p i e l p' i' e' l' hh hh' hne :=
    hs.disjoint _ _ _ _ _ _ _ _ (h.holds.mp hh) (h.holds.mp hh') hne
  owned c hc h0 hb := by
    rw [h.next c] at h0 hb
    rcases hs.owned c hc h0 hb with hz | ⟨p, i, e, l, hh, hmem⟩
    · exact .inl hz
    · exact .inr ⟨p, i, e, l, h.holds.mpr hh, hmem⟩
  loose c hc p i e l hh := hs.loose c hc p i e l (h.holds.mp hh)

theorem Tree.Agree.sized (h : t.Agree t') (hz : t.Sized g) : t'.Sized g :=
  fun p i e l hh hd => hz p i e l (h.holds.mp hh) hd

end Agreement

/-! ## What open nodes rely on -/

/-- What an operation as a whole may do to what was there: an entry that is left
still names a file, or the directory it named, and a directory that is left has
the clusters it had, and perhaps more. -/
structure Tree.Step (g : Geometry) (t t' : Tree) : Prop where
  kept : ∀ p i e e', t.IsDir p → t.entry p i = some e → t'.IsDir p → t'.entry p i = some e' →
    e'.dir = e.dir ∧ (e.dir = true → e'.first = e.first)
  grown : ∀ c l, t.IsDir (some c) → t'.IsDir (some c) → t.IsChain g l → l.head? = some c →
    ∃ ex, t'.IsChain g (l ++ ex)

/-- A step that takes no entry away. -/
structure Tree.Keeps (g : Geometry) (t t' : Tree) : Prop where
  kept : ∀ p i e, t.IsDir p → t.entry p i = some e → ∃ e', t'.IsDir p ∧ t'.entry p i = some e' ∧
    e'.dir = e.dir ∧ (e.dir = true → e'.first = e.first)
  grown : ∀ c l, t.IsDir (some c) → t.IsChain g l → l.head? = some c → ∃ ex, t'.IsChain g (l ++ ex)

section Steps

variable {g : Geometry} {t t1 t' : Tree}

theorem Tree.Keeps.isDir (h : t.Keeps g t') {p : Option Nat} (hp : t.IsDir p) : t'.IsDir p := by
  induction hp with
  | root => exact .root
  | sub hp he hd ih =>
    obtain ⟨e', hp', he', hd', hf⟩ := h.kept _ _ _ hp he
    rw [← hf hd]
    exact .sub hp' he' (hd'.trans hd)

theorem Tree.Keeps.step (h : t.Keeps g t') : t.Step g t' where
  kept p i e e' hp he _ he' := by
    obtain ⟨e1, -, he1, h1⟩ := h.kept p i e hp he
    rw [he'] at he1
    cases he1
    exact h1
  grown c l hc _ hl hhead := h.grown c l hc hl hhead

theorem Tree.Keeps.trans_step (h : t.Keeps g t1) (h' : t1.Step g t') : t.Step g t' where
  kept p i e e' hp he hp' he' := by
    obtain ⟨e1, hp1, he1, hd1, hf1⟩ := h.kept p i e hp he
    obtain ⟨hd2, hf2⟩ := h'.kept p i e1 e' hp1 he1 hp' he'
    exact ⟨hd2.trans hd1, fun hd => (hf2 (hd1.trans hd)).trans (hf1 hd)⟩
  grown c l hc hc' hl hhead := by
    obtain ⟨ex, hex⟩ := h.grown c l hc hl hhead
    obtain ⟨ex', hex'⟩ := h'.grown c _ (h.isDir hc) hc' hex (by rw [head?_append, hhead]; rfl)
    exact ⟨ex ++ ex', by rw [← append_assoc]; exact hex'⟩

theorem Tree.Keeps.trans (h : t.Keeps g t1) (h' : t1.Keeps g t') : t.Keeps g t' where
  kept p i e hp he := by
    obtain ⟨e1, hp1, he1, -, -⟩ := h.kept p i e hp he
    obtain ⟨e2, hp2, he2, -, -⟩ := h'.kept p i e1 hp1 he1
    exact ⟨e2, hp2, he2, (h.trans_step h'.step).kept p i e e2 hp he hp2 he2⟩
  grown c l hc := (h.trans_step h'.step).grown c l hc (h'.isDir (h.isDir hc))

theorem Tree.Keeps.refl (t : Tree) : t.Keeps g t where
  kept _ _ e hp he := ⟨e, hp, he, rfl, fun _ => rfl⟩
  grown _ l _ hl _ := ⟨[], by rw [append_nil]; exact hl⟩

theorem Tree.Agree.keeps (h : t.Agree t') : t.Keeps g t' where
  kept p i e hp he := ⟨e, h.isDir.mpr hp, (h.entry p i hp).trans he, rfl, fun _ => rfl⟩
  grown _ l _ hl _ := ⟨[], by rw [append_nil]; exact hl.congr fun c _ => h.next c⟩

theorem Tree.Step.trans_agree (h : t.Step g t1) (h' : t1.Agree t') : t.Step g t' where
  kept p i e e' hp he hp' he' := by
    have hp1 := h'.isDir.mp hp'
    exact h.kept p i e e' hp he hp1 ((h'.entry p i hp1).symm.trans he')
  grown c l hc hc' hl hhead := by
    obtain ⟨ex, hex⟩ := h.grown c l hc (h'.isDir.mp hc') hl hhead
    exact ⟨ex, hex.congr fun c _ => h'.next c⟩

variable {p : Option Nat} {i : Nat} {o o' : Option Entry} {l l' z z' : List Nat}

theorem Entry.link_eq {e e' : Entry} (h : e.link = e'.link) :
    e'.dir = e.dir ∧ (e.dir = true → e'.first = e.first) := by
  unfold Entry.link at h
  cases hd : e.dir <;> cases hd' : e'.dir <;> simp [hd, hd'] at h ⊢
  exact h.symm

section

variable (u : Tree.Update g t t' p i o o' l l' z z')
include u

theorem Tree.Update.link_kept {e e' : Entry}
    (ho : o = some e) (ho' : o' = some e') : e'.dir = e.dir ∧ (e.dir = true → e'.first = e.first) := by
  subst ho ho'
  cases u.relink with
  | same h => exact Entry.link_eq h
  | gone _ ho' _ => cases ho'
  | new ho _ _ => cases ho

theorem Tree.Update.step (hg : g.Usable) (hs : t.Sound g z)
    (hdir : ∀ e e', o = some e → o' = some e' → e.dir = true → ∃ ex, l' = l ++ ex) :
    t.Step g t' where
  kept q j e e' hq he hq' he' := by
    by_cases hslot : (q, j) = (p, i)
    · cases hslot
      exact u.link_kept (u.old.symm.trans he) (u.new.symm.trans he')
    · have := (u.entry_old hq' he' hslot).2
      rw [he] at this
      cases this
      exact ⟨rfl, fun _ => rfl⟩
  grown c x hc hc' hx hhead := by
    have hxD : x.headD 0 = c := by
      cases x with
      | nil => cases hhead
      | cons a x => exact Option.some.inj hhead
    have hs' := u.sound hg hs
    obtain ⟨q, j, e, y, hh, hd, hfirst, hmem⟩ := hs'.dirChain hc'
    by_cases hslot : (q, j) = (p, i)
    · cases hslot
      have ho' : o' = some e := u.new.symm.trans hh.entry
      have hy : y = l' := Tree.Holds.unique hg hh (u.holds_self ho')
      -- the entry of the directory was there before, with the chain `x`
      obtain ⟨q0, j0, e0, y0, hh0, hd0, hfirst₀, hmem0⟩ := hs.dirChain hc
      by_cases hslot0 : (q0, j0) = (p, i)
      · cases hslot0
        have ho : o = some e0 := u.old.symm.trans hh0.entry
        obtain ⟨ex, hex⟩ := hdir e0 e ho ho' hd0
        have hl : l = x := by
          have hchain := u.oldChain
          rw [ho] at hchain
          exact chain_unique hg hchain.1 hx (by rw [hxD, ← hchain.2.1, hfirst₀])
        exact ⟨ex, by rw [← hl, ← hex, ← hy]; exact hh.chain⟩
      · exact absurd (hs'.same_slot (u.holds_new hs hh0 hslot0) hh hmem0 hmem) hslot0
    · have hold := u.holds_old hg hs hh hslot
      have hyx : y = x := chain_unique hg hold.chain hx (by rw [hxD, ← hold.first, hfirst])
      exact ⟨[], by rw [append_nil, ← hyx]; exact hh.chain⟩

theorem Tree.Update.keeps (hg : g.Usable) (hs : t.Sound g z) (hleft : o ≠ none → o' ≠ none)
    (hdir : ∀ e e', o = some e → o' = some e' → e.dir = true → ∃ ex, l' = l ++ ex) :
    t.Keeps g t' := by
  have hkept : ∀ q j e, t.IsDir q → t.entry q j = some e → ∃ e', t'.IsDir q ∧
      t'.entry q j = some e' ∧ e'.dir = e.dir ∧ (e.dir = true → e'.first = e.first) := by
    intro q j e hq he
    by_cases hslot : (q, j) = (p, i)
    · cases hslot
      have ho : o = some e := u.old.symm.trans he
      obtain ⟨e', ho'⟩ := Option.ne_none_iff_exists'.mp (hleft (by rw [ho]; simp))
      exact ⟨e', u.dir_new, u.new.trans ho', u.link_kept ho ho'⟩
    · obtain ⟨hq', he'⟩ := u.entry_new hq he hslot
      exact ⟨e, hq', he', rfl, fun _ => rfl⟩
  refine ⟨hkept, fun c x hc hx hhead => ?_⟩
  have hc' : t'.IsDir (some c) := by
    obtain ⟨q, j, e, hq, he, hd, rfl⟩ := hc.named
    obtain ⟨e', hq', he', hd', hf⟩ := hkept q j e hq he
    rw [← hf hd]
    exact .sub hq' he' (hd'.trans hd)
  exact (u.step hg hs hdir).grown c x hc hc' hx hhead

end

end Steps

end ManiOS.Fat
