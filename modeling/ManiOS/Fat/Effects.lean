import ManiOS.Fat.Updates

/-!
# What the directory operations do

`fat_create`, `fat_remove` and `fat_rename` on a sound disk, through a node of
one of its directories.  Whatever they return, the disk they leave is sound
again, files have the clusters their sizes need if they had before, and every
entry that is left names what it named (`DirOp`).
-/

namespace ManiOS.Fat

open ManiOS.Lib

/-- A node of directory `p`, which is stored at `s`. -/
structure DirNode (g : Geometry) (d : Disk) (n : FatNode) (p : Option Nat) (s : Place) : Prop where
  dir : (d.tree g).IsDir p
  stored : Stored g d p s
  node : NodeAt g d n s
  type : n.type = .dir

/-- What a call through a node of directory `p` leaves. -/
structure DirOp (g : Geometry) (d : Disk) (n : FatNode) (p : Option Nat) (n' : FatNode)
    (d' : Disk) : Prop where
  moved : Moved n n'
  sound : (d'.tree g).Sound g []
  sized : (d.tree g).Sized g → (d'.tree g).Sized g
  step : (d.tree g).Step g (d'.tree g)
  node : ∃ s, DirNode g d' n' p s

section DirOps

variable {g : Geometry} {agree : Prop} {d d' : Disk} {n n' : FatNode} {p : Option Nat} {s : Place}
  {i : Nat} {e : Entry} {l : List Nat}

theorem Moved.type (h : Moved n n') : n'.type = n.type := by
  obtain ⟨i, c, rfl⟩ := h
  rfl

theorem DirNode.moved (h : DirNode g d n p s) (hm : Moved n n') (hat : NodeAt g d n' s) :
    DirNode g d n' p s :=
  ⟨h.dir, h.stored, hat, hm.type.trans h.type⟩

theorem DirOp.after {n1 : FatNode} (hm : Moved n n1) (h : DirOp g d n1 p n' d') :
    DirOp g d n p n' d' :=
  ⟨hm.trans h.moved, h.sound, h.sized, h.step, h.node⟩

theorem DirOp.idle (hs : (d.tree g).Sound g []) (h : DirNode g d n p s) (hm : Moved n n')
    (hat : NodeAt g d n' s) : DirOp g d n p n' d :=
  ⟨hm, hs, id, (Tree.Keeps.refl _).step, s, h.moved hm hat⟩

theorem Found.holds {z : List Nat} (hg : g.Fat16) (hs : (d.tree g).Sound g z)
    (hp : (d.tree g).IsDir p) (hsp : Stored g d p s) (hf : Found g d s i) :
    ∃ l, (d.tree g).Holds g p i (entryOf (d.slot g s i)) l ∧
      (isDirEntry (d.slot g s i) = true → l ≠ []) :=
  hs.holds hp ((hsp.entry hg i).trans hf.entryAt)

variable {x : Buf}

theorem ensures_refuseFull {z : List Nat} (hg : g.Fat16) (hs : (d.tree g).Sound g z)
    (hh : (d.tree g).Holds g p i (entryOf x) l) :
    Does g agree (refuseFull g x) n d fun r n' d' => n' = n ∧ d' = d ∧
      ((r = .ok () ∧ (isDirEntry x = true → ∀ j, (d.tree g).entry (some (entryCluster x)) j = none)) ∨
        r = .error (.rc .enotempty)) := by
  unfold refuseFull
  by_cases hd : isDirEntry x = true
  · rw [if_pos hd]
    have hhead : l.head? = some (entryCluster x) := hh.head_eq ((hs.chainOf hg hh).2.2 hd)
    have hat : NodeAt g d (dirAt false (entryCluster x)) (.clusters l) :=
      ⟨rfl, hh.chain, hh.first, .inl rfl⟩
    have hsp : Stored g d (some (entryCluster x)) (.clusters l) := .chain hh.chain hhead
    refine .onLocal ((ensures_dirIsEmpty hg hat).mono ?_)
    rintro r _ d' ⟨rfl, hr⟩
    refine ⟨rfl, rfl, hr.imp_left fun h => ⟨h.1, fun _ j => ?_⟩⟩
    rw [hsp.entry hg, h.2 j]
  · rw [if_neg hd]
    exact .pure ⟨rfl, rfl, .inl ⟨rfl, fun h => absurd h hd⟩⟩

section

variable (hg : g.Fat16) (hs : (d.tree g).Sound g []) (hn : DirNode g d n p s)
include hg hs hn

theorem op_remove (hh : (d.tree g).Holds g p i e l)
    (hempty : e.dir = true → ∀ j, (d.tree g).entry (some e.first) j = none)
    (hnext : ∀ c, d'.next c = if c ∈ l then 0 else d.next c) (hw : Within s d d')
    (hent : ∀ j, entryAt (s.slots g) (d'.slot g s) j =
      if j = i then none else entryAt (s.slots g) (d.slot g s) j)
    (hm : Moved n n') (hat : NodeAt g d' n' s) : DirOp g d n p n' d' ∧ DirNode g d' n' p s ∧
      (d.tree g).Update g (d'.tree g) p i (some e) none l [] [] [] := by
  obtain ⟨hsp', u⟩ := update_remove hg hs hn.stored hh hempty hnext hw hent
  have hnode : DirNode g d' n' p s := ⟨u.dir_new, hsp', hat, hm.type.trans hn.type⟩
  exact ⟨⟨hm, u.sound hg hs, fun hz => u.sized hg hs hz fun e' h => (nomatch h),
    u.step hg hs fun _ e' _ h => (nomatch h), s, hnode⟩, hnode, u⟩

theorem DirNode.freed {hint : Nat} (hh : (d.tree g).Holds g p i e l) (hat : NodeAt g d' n' s) :
    NodeAt g ((d'.freed l).setHint hint) n' s := by
  cases s with
  | root => exact hat
  | clusters lp =>
    have hon : OnChain g d' n' lp := hat
    have hself : List.Disjoint lp l :=
      hs.dir_apart hg hh hh.dir hn.stored (hs.no_self hh.dir i e hh.entry)
    exact ⟨hon.notRoot, hon.chain.congr fun c hc => if_neg fun h => hself hc h, hon.first,
      hon.cursor⟩

/-- A chain handed back, and then the entry that owned it deleted. -/
theorem ensures_dropEntry (hi : i < s.slots g) (hused : ∀ j ≤ i, d.slot g s j 0 ≠ entryEnd)
    (hh : (d.tree g).Holds g p i e l)
    (hempty : e.dir = true → ∀ j, (d.tree g).entry (some e.first) j = none) :
    Does g agree (do freeChain g e.first; entryDelete g (32 * i)) n d fun r n' d' =>
      r = .ok () ∧ DirOp g d n p n' d' ∧ DirNode g d' n' p s ∧
        (d.tree g).Update g (d'.tree g) p i (some e) none l [] [] [] := by
  refine .bind ((ensures_freeChain hg hh.chain hh.first.symm).mono ?_)
  rintro r n' d1 ⟨rfl, rfl, hint, rfl⟩
  have hat : NodeAt g ((d.freed l).setHint hint) n' s := hn.freed hg hs hh hn.node
  refine (ensures_entryDelete hg hat hi hused).mono ?_
  rintro r n'' d' ⟨rfl, hm, hat', hdrop⟩
  exact ⟨rfl, op_remove hg hs hn hh hempty (fun c => by rw [hdrop.next]; rfl)
    ⟨hdrop.within.root, hdrop.within.data⟩ hdrop.entries hm hat'⟩

theorem ensures_fatRemove (name : CStr) (expect : VnodeType) :
    Does g agree (fatRemove g name expect) n d fun _ n' d' => DirOp g d n p n' d' := by
  unfold fatRemove
  refine .guard (fun _ => .idle hs hn (.refl n) hn.node) fun _ => ?_
  refine .bind ((ensures_entryFind hg hn.node name).mono ?_)
  rintro r n' d' ⟨rfl, hm, hat, ⟨i, rfl, hfound⟩ | rfl⟩
  · have hn' := hn.moved hm hat
    have hidle := DirOp.idle hs hn hm hat
    obtain ⟨l, hh, -⟩ := hfound.holds hg hs hn.dir hn.stored
    refine .guard (fun _ => hidle) fun _ => ?_
    refine .guard (fun _ => hidle) fun _ => ?_
    refine .bind ((ensures_refuseFull hg hs hh).mono ?_)
    rintro r n'' d'' ⟨rfl, rfl, ⟨rfl, hempty⟩ | rfl⟩
    · refine (ensures_dropEntry hg hs hn' hfound.lt hfound.used hh hempty).mono ?_
      rintro r n2 d2 ⟨-, hop, -, -⟩
      exact hop.after hm
    · exact hidle
  · exact .idle hs hn hm hat

end

/-! ## Renaming -/

theorem ensures_entryOver (hg : g.Usable) (h : NodeAt g d n s) (hi : i < s.slots g)
    (hused : ∀ j ≤ i, d.slot g s j 0 ≠ entryEnd) (hx : x 0 ≠ entryEnd) :
    Does g agree (entryPlace g (32 * i) x false) n d fun r n' d' =>
      r = .ok () ∧ n' = n ∧ d'.next = d.next ∧ Within s d d' ∧
        ∀ j, listedAt (s.slots g) (d'.slot g s) j =
          if j = i then listed (clip x) else listedAt (s.slots g) (d.slot g s) j := by
  have hclip : clip x 0 ≠ entryEnd := hx
  refine (yields_writeEntry hg h hi x .enospc).bind (.pure
    ⟨rfl, rfl, Disk.put_next .., .put .., fun j => ?_⟩)
  exact listedAt_set hi hused hclip
    (by rw [slot_put (h.nodup hg) (bpc_pos hg) x hi, if_pos rfl])
    (fun k hk hki => by rw [slot_put (h.nodup hg) (bpc_pos hg) x hk, if_neg hki]) j

theorem isVisible_rename {a : Buf} (hx : isVisible x = true) (ha : GoodFirst (a 0)) :
    isVisible (memcpy x 0 a 0 11) = true := by
  obtain ⟨-, hdel, hdot⟩ := ha
  unfold isVisible isListed at hx ⊢
  simp only [Bool.and_eq_true, Bool.not_eq_true', Bool.or_eq_false_iff, decide_eq_false_iff_not,
    decide_eq_true_eq] at hx ⊢
  exact ⟨⟨⟨hdel, hx.1.1.2⟩, hx.1.2⟩, hdot⟩

theorem named_rename {a : Buf} (hx : isVisible x = true) (ha : GoodFirst (a 0)) :
    named (memcpy x 0 a 0 11) = some (entryOf x) := by
  rw [named_of_visible (isVisible_rename hx ha)]
  rfl

/-- The target of a rename: a slot a scan shows, other than the source's. -/
theorem ensures_findTarget (hg : g.Usable) (h : NodeAt g d n s) (dest : CStr) (i : Nat) :
    Does g agree (findTarget g dest (32 * i)) n d <| Scanned g d n s fun r =>
      r = .ok none ∨ ∃ j, r = .ok (some (32 * j, d.slot g s j)) ∧ j ≠ i ∧ Found g d s j := by
  refine .tryCatch (.bind ((ensures_entryFind hg h dest).mono ?_))
  rintro r n' d' ⟨rfl, hm, hat, ⟨j, rfl, hfound⟩ | rfl⟩
  · refine .pure ?_
    by_cases hji : j = i
    · subst hji
      exact ⟨rfl, hm, hat, .inl (by simp)⟩
    · exact ⟨rfl, hm, hat, .inr ⟨j, by simp [hji], hji, hfound⟩⟩
  · exact .pure ⟨rfl, hm, hat, .inl rfl⟩

theorem DirOp.of_agree (hg : g.Fat16) (hs : (d.tree g).Sound g []) (h : DirNode g d n p s)
    (hm : Moved n n') (hat : NodeAt g d' n' s) (hnext : d'.next = d.next) (hw : Within s d d')
    (hent : ∀ j, entryAt (s.slots g) (d'.slot g s) j = entryAt (s.slots g) (d.slot g s) j) :
    (d.tree g).Agree (d'.tree g) ∧ DirNode g d' n' p s := by
  have ha := agree_of_within hg hs h.dir h.stored hw hnext hent
  exact ⟨ha, ha.isDir.mpr h.dir, h.stored.congr fun _ _ c _ => by rw [hnext], hat,
    hm.type.trans h.type⟩

section

variable (hg : g.Fat16) (hs : (d.tree g).Sound g []) (hn : DirNode g d n p s)
include hg hs hn

/-- `drop_target`: the target goes, or nothing does.  The other entries of the
directory stay. -/
theorem ensures_dropTarget (hf : Found g d s i) (src : Buf) :
    Does g agree (dropTarget g src (d.slot g s i) (32 * i)) n d fun r n' d' =>
      DirOp g d n p n' d' ∧ (r = .ok () → DirNode g d' n' p s ∧
        ∀ j, j ≠ i → (d'.tree g).entry p j = (d.tree g).entry p j) := by
  obtain ⟨l, hh, -⟩ := hf.holds hg hs hn.dir hn.stored
  unfold dropTarget
  refine .guard (fun _ => ⟨.idle hs hn (.refl n) hn.node, fun h => nomatch h⟩) fun _ => ?_
  refine .bind ((ensures_refuseFull hg hs hh).mono ?_)
  rintro r n1 d1 ⟨rfl, rfl, ⟨rfl, hempty⟩ | rfl⟩
  · refine .bind ((ensures_dropLongName hg hn.node hf.lt hf.used).mono ?_)
    rintro r n2 d2 ⟨rfl, hm, hat, hun⟩
    obtain ⟨hagree, hn2⟩ := DirOp.of_agree hg hs hn hm hat hun.next hun.within hun.entries
    have hs2 := hagree.sound hs
    have hh2 := hagree.holds.mpr hh
    have hempty₂ : (entryOf (d1.slot g s i)).dir = true →
        ∀ j, (d2.tree g).entry (some (entryOf (d1.slot g s i)).first) j = none := by
      intro hd j
      rw [hagree.entry _ j (.sub hh.dir hh.entry hd)]
      exact hempty hd j
    refine (ensures_dropEntry hg hs2 hn2 hf.lt hun.used hh2 hempty₂).mono ?_
    rintro r n3 d3 ⟨rfl, hop, hnode, u⟩
    refine ⟨⟨hm.trans hop.moved, hop.sound, fun hz => hop.sized (hagree.sized hz),
      hagree.keeps.trans_step hop.step, hop.node⟩, fun _ => ⟨hnode, fun j hj => ?_⟩⟩
    rw [u.others p j hn2.dir (by simpa using hj), hagree.entry p j hn.dir]
  · exact ⟨.idle hs hn (.refl _) hn.node, fun h => nomatch h⟩

/-- What `fat_rename` does to the source once nothing is in its way. -/
theorem ensures_putName (hx : isVisible x = true)
    (hentry : (d.tree g).entry p i = some (entryOf x)) (dest : CStr) : Does g agree (do
      let name11 ← makeEntryName g dest (some (32 * i))
      dropLongName g (32 * i)
      entryPlace g (32 * i) (memcpy x 0 name11 0 11) false) n d fun _ n' d' =>
        DirOp g d n p n' d' ∧ (d.tree g).Agree (d'.tree g) := by
  have hidle : (d.tree g).Agree (d.tree g) := ⟨fun _ => rfl, fun _ _ _ => rfl⟩
  rw [hn.stored.entry hg] at hentry
  obtain ⟨hi, hused, -, -⟩ := entryAt_eq_some hentry
  refine .bind ((ensures_makeEntryName hg hn.node dest _).mono ?_)
  rintro r n1 d1 ⟨rfl, hm1, hat1, ⟨a, rfl, ha⟩ | ⟨err, rfl⟩⟩
  · have hn1 := hn.moved hm1 hat1
    refine .bind ((ensures_dropLongName hg hat1 hi hused).mono ?_)
    rintro r n2 d2 ⟨rfl, hm2, hat2, hun⟩
    obtain ⟨hagree, hn2⟩ := DirOp.of_agree hg hs hn1 hm2 hat2 hun.next hun.within hun.entries
    have hs2 := hagree.sound hs
    refine (ensures_entryOver hg hat2 hi hun.used (x := memcpy x 0 a 0 11) ha.1).mono ?_
    rintro r n3 d3 ⟨rfl, rfl, hnext, hw, hent⟩
    obtain ⟨hagree', hn3⟩ := DirOp.of_agree hg hs2 hn2 (.refl _) (hat2.of_next hnext) hnext hw
      (fun j => by
        rw [entryAt_of_listedAt (hent j), named_clip]
        split
        next hj => rw [hj, named_rename hx ha, hun.entries i, hentry]
        next => rfl)
    have hboth : (d1.tree g).Agree (d3.tree g) :=
      ⟨fun c => (hagree'.next c).trans (hagree.next c), fun q j hq =>
        (hagree'.entry q j (hagree.isDir.mpr hq)).trans (hagree.entry q j hq)⟩
    exact ⟨⟨hm1.trans hm2, hagree'.sound hs2, fun hz => hboth.sized hz, hboth.keeps.step, s, hn3⟩,
      hboth⟩
  · exact ⟨.idle hs hn hm1 hat1, hidle⟩

theorem ensures_fatRename (source dest : CStr) :
    Does g agree (fatRename g source dest) n d fun _ n' d' => DirOp g d n p n' d' := by
  unfold fatRename
  refine .guard (fun _ => .idle hs hn (.refl n) hn.node) fun _ => ?_
  refine .bind ((ensures_entryFind hg hn.node source).mono ?_)
  rintro r n1 d1 ⟨rfl, hm1, hat1, ⟨i, rfl, hfound⟩ | rfl⟩
  · have hn1 := hn.moved hm1 hat1
    have hentry : (d1.tree g).entry p i = some (entryOf (d1.slot g s i)) :=
      (hn.stored.entry hg i).trans hfound.entryAt
    refine .bind ((ensures_findTarget hg hat1 dest i).mono ?_)
    rintro r n2 d2 ⟨rfl, hm2, hat2, rfl | ⟨j, rfl, hji, hfoundj⟩⟩
    · have hn2 := hn1.moved hm2 hat2
      refine (ensures_putName hg hs hn2 hfound.visible hentry dest).mono ?_
      rintro r n3 d3 ⟨hop, -⟩
      exact hop.after (hm1.trans hm2)
    · have hn2 := hn1.moved hm2 hat2
      refine .bind ((ensures_dropTarget hg hs hn2 hfoundj _).mono ?_)
      rintro r n3 d3 ⟨hop, hok⟩
      have hop' : DirOp g d2 n p n3 d3 := hop.after (hm1.trans hm2)
      cases r with
      | error err => exact hop'
      | ok a =>
        obtain ⟨hn3, hothers⟩ := hok rfl
        have hentry₃ : (d3.tree g).entry p i = some (entryOf (d2.slot g s i)) :=
          (hothers i (.symm hji)).trans hentry
        refine (ensures_putName hg hop.sound hn3 hfound.visible hentry₃ dest).mono ?_
        rintro r n4 d4 ⟨hop4, hagree⟩
        exact ⟨hop'.moved.trans hop4.moved, hop4.sound, fun hz => hop4.sized (hop'.sized hz),
          hop'.step.trans_agree hagree, hop4.node⟩
  · exact .idle hs hn hm1 hat1

end

end DirOps

end ManiOS.Fat
