import ManiOS.Fat.Entries

/-!
# What changes of a disk do to its tree

Each change the operations make, as an update of the tree: an entry placed,
taken away, or given another chain or size, a directory that grew, clusters
taken that are on no chain yet.  The work is in showing that every other entry
of every directory says what it said, and that is the same argument each time:
the clusters that changed belong to one directory or one file, or were free.
-/

namespace ManiOS.Fat

open ManiOS.Lib List

section Frames

variable {g : Geometry} {d d' : Disk} {p q : Option Nat} {s : Place} {i j : Nat} {e : Entry}
  {l lq z : List Nat} {X : List Nat}

theorem Tree.Sound.no_self (hs : (d.tree g).Sound g z) (hp : (d.tree g).IsDir p) :
    ∀ i e, (d.tree g).entry p i = some e → e.dir = true → p ≠ some e.first := by
  induction hp with
  | root =>
    intro i e _ _ h
    cases h
  | @sub p i e hp he hd ih =>
    intro i' e' he' hd' heq
    -- both entries own the chain of this directory, so they are one
    obtain ⟨l, hh, hne⟩ := hs.holds hp he
    obtain ⟨l', hh', hne'⟩ := hs.holds (.sub hp he hd) he'
    have hfirst : e.first = e'.first := Option.some.inj heq
    have hmem' : e.first ∈ l' := hfirst ▸ hh'.first_mem (hne' hd')
    have hslot := hs.same_slot hh hh' (hh.first_mem (hne hd)) hmem'
    have hpe : p = some e.first := congrArg Prod.fst hslot
    exact ih i e he hd hpe

theorem Tree.Sound.dir_apart (hg : g.Fat16) (hs : (d.tree g).Sound g z)
    (hh : (d.tree g).Holds g p i e l) (hq : (d.tree g).IsDir q) (hsq : Stored g d q (.clusters lq))
    (hne : e.dir = true → q ≠ some e.first) : List.Disjoint lq l := by
  obtain ⟨c, rfl⟩ : ∃ c, q = some c := by
    cases hsq
    exact ⟨_, rfl⟩
  obtain ⟨p', i', e', hh', hd', rfl⟩ := hs.owner hg hq hsq
  refine hs.disjoint _ _ _ _ _ _ _ _ hh' hh ?_
  intro hslot
  cases hslot
  have he : e' = e := Option.some.inj (hh'.entry.symm.trans hh.entry)
  subst he
  exact hne hd' rfl

theorem Tree.Sound.dir_cluster (hg : g.Fat16) (hs : (d.tree g).Sound g z) (hq : (d.tree g).IsDir q)
    (hsq : Stored g d q (.clusters lq)) {c : Nat} (hc : c ∈ lq) : d.next c ≠ 0 ∧ c ∉ z := by
  obtain ⟨a, rfl⟩ : ∃ c, q = some c := by
    cases hsq
    exact ⟨_, rfl⟩
  obtain ⟨p', i', e', hh', -, -⟩ := hs.owner hg hq hsq
  exact ⟨(Disk.IsChain.next_used hh'.chain hc), fun hz => hs.loose c hz _ _ _ _ hh' hc⟩

/-- `d'` differs from `d` only in the bytes of place `s`, and in the entries and
contents of the clusters of `X`. -/
structure Touches (s : Place) (X : List Nat) (d d' : Disk) : Prop where
  root : s ≠ .root → d'.root = d.root
  next : ∀ c, c ∉ X → d'.next c = d.next c
  data : ∀ c, c ∉ X → (∀ l, s = .clusters l → c ∉ l) → d'.data c = d.data c

theorem Touches.of_within (h : Within s d d') (hnext : ∀ c, c ∉ X → d'.next c = d.next c) :
    Touches s X d d' :=
  ⟨h.root, hnext, fun c _ hc => h.data c hc⟩

section

variable (hg : g.Fat16) (hs : (d.tree g).Sound g z) (hp : (d.tree g).IsDir p) (hsp : Stored g d p s)
include hg hs hp hsp

/-- A change inside directory `p` and of clusters that are no directory's does
not reach another directory. -/
theorem Touches.place_other {sq : Place} (ht : Touches s X d d') (hq : (d.tree g).IsDir q)
    (hsq : Stored g d q sq) (hne : q ≠ p)
    (hX : ∀ lq, sq = .clusters lq → List.Disjoint lq X) : SamePlace sq d d' := by
  refine ⟨fun hr => ?_, fun lq hl c hc => ?_⟩
  · refine ht.root fun hr' => hne ?_
    subst hr hr'
    cases hsq
    cases hsp
    rfl
  · subst hl
    have hcX : c ∉ X := fun h => hX lq rfl hc h
    refine ⟨ht.next c hcX, ht.data c hcX fun l hl hcl => ?_⟩
    subst hl
    exact hs.places_apart hg hq hp hne hsq hsp hc hcl

theorem Touches.entry_other (ht : Touches s X d d') (hq : (d.tree g).IsDir q) (hne : q ≠ p)
    (hX : ∀ lq, Stored g d q (.clusters lq) → List.Disjoint lq X) (j : Nat) :
    (d'.tree g).entry q j = (d.tree g).entry q j := by
  obtain ⟨sq, hsq⟩ := hs.stored hq
  exact (ht.place_other hg hs hp hsp hq hsq hne fun lq hl => hX lq (hl ▸ hsq)).entry hg hsq j

theorem Touches.others (hsp' : Stored g d' p s) (ht : Touches s X d d')
    (hself : ∀ j, j ≠ i → entryAt (s.slots g) (d'.slot g s) j = entryAt (s.slots g) (d.slot g s) j)
    (hq : (d.tree g).IsDir q) (hne : (q, j) ≠ (p, i))
    (hX : q ≠ p → ∀ lq, Stored g d q (.clusters lq) → List.Disjoint lq X) :
    (d'.tree g).entry q j = (d.tree g).entry q j := by
  by_cases hqp : q = p
  · subst hqp
    have hji : j ≠ i := fun h => hne (by rw [h])
    rw [hsp.entry hg, hsp'.entry hg]
    exact hself j hji
  · exact ht.entry_other hg hs hp hsp hq hqp (hX hqp) j

end

end Frames

/-! ## The changes one by one -/

section Changes

variable {g : Geometry} {d d' : Disk} {p q : Option Nat} {s : Place} {i : Nat} {e e' : Entry}
  {l l' z : List Nat}

theorem agree_of_within (hg : g.Fat16) (hs : (d.tree g).Sound g z) (hp : (d.tree g).IsDir p)
    (hsp : Stored g d p s) (hw : Within s d d') (hnext : d'.next = d.next)
    (hself : ∀ j, entryAt (s.slots g) (d'.slot g s) j = entryAt (s.slots g) (d.slot g s) j) :
    (d.tree g).Agree (d'.tree g) := by
  have hsp' : Stored g d' p s := hsp.congr fun _ _ c _ => by rw [hnext]
  refine ⟨fun c => congrFun hnext c, fun q j hq => ?_⟩
  by_cases hqp : q = p
  · subst hqp
    rw [hsp.entry hg, hsp'.entry hg]
    exact hself j
  · have ht : Touches s [] d d' := .of_within hw fun c _ => congrFun hnext c
    exact ht.entry_other hg hs hp hsp hq hqp (fun lq _ => by simp) j

/-- An entry and its chain in the words of `Tree.Update`. -/
theorem Tree.Sound.chainOf (hg : g.Fat16) (hs : (d.tree g).Sound g z)
    (hh : (d.tree g).Holds g p i e l) : (d.tree g).ChainOf g (some e) l := by
  obtain ⟨x, hx, hne⟩ := hs.holds hh.dir hh.entry
  rw [Tree.Holds.unique hg hx hh] at hne
  exact ⟨hh.chain, hh.first, hne⟩

theorem slot_append (d : Disk) {a b : List Nat} (hi : i < (Place.clusters a).slots g) :
    d.slot g (.clusters (a ++ b)) i = d.slot g (.clusters a) i := by
  funext j
  unfold Disk.slot
  by_cases hj : j < 32
  · rw [if_pos hj, if_pos hj]
    show d.data ((a ++ b).getD _ 0) _ = d.data (a.getD _ 0) _
    rw [getD_append _ _ _ _ (div_lt_of_lt_size (slot_in hi hj))]
  · rw [if_neg hj, if_neg hj]

variable (hg : g.Fat16)
include hg

theorem entry_gone {c : Nat} (hl : d.IsChain g (c :: l))
    (hempty : ∀ j, (d.tree g).entry (some c) j = none) (hnext : d'.next c = 0)
    (hdata : d'.data c = d.data c) (j : Nat) : (d'.tree g).entry (some c) j = none := by
  have hv : validCluster g c = true := hl.cells c mem_cons_self
  have hchain : d'.chainFrom g c = [c] := by
    obtain ⟨k, hk⟩ : ∃ k, g.clusterCount = k + 1 := by
      have := validCluster_iff.mp hv
      exact ⟨g.clusterCount - 1, by omega⟩
    have hinv : ¬ validCluster g 0 = true := fun h => validCluster_ne_zero h rfl
    unfold Disk.chainFrom
    rw [hk, walk, if_pos hv, hnext]
    cases k with
    | zero => rfl
    | succ k => rw [walk, if_neg hinv]
  have hstored : Stored g d (some c) (.clusters (c :: l)) := .chain hl rfl
  show entryAt ((Place.clusters (d'.chainFrom g c)).slots g)
    (d'.slot g (.clusters (d'.chainFrom g c))) j = none
  rw [hchain]
  -- the first cluster says what it said as part of the chain
  have hslot : ∀ k < (Place.clusters [c]).slots g,
      d'.slot g (.clusters [c]) k = d.slot g (.clusters (c :: l)) k := by
    intro k hk
    rw [show c :: l = [c] ++ l from rfl, slot_append d hk]
    exact slot_congr hk fun o ho => byteAt_clusters_congr (by
      intro x hx
      rw [mem_singleton.mp hx]
      exact hdata) ho
  have hslots : (Place.clusters [c]).slots g ≤ (Place.clusters (c :: l)).slots g := by
    rw [show c :: l = [c] ++ l from rfl, slots_append hg]
    omega
  cases hentry : entryAt ((Place.clusters [c]).slots g) (d'.slot g (.clusters [c])) j with
  | none => rfl
  | some x =>
    obtain ⟨hj, hused, hnamed, -⟩ := entryAt_eq_some hentry
    have hnone := hempty j
    rw [hstored.entry hg, entryAt_of_used (by omega) fun k hk => by
      rw [← hslot k (by omega)]
      exact hused k hk, ← hslot j hj] at hnone
    unfold named at hnone
    rw [if_pos hnamed] at hnone
    cases hnone

theorem update_remove (hs : (d.tree g).Sound g z) (hsp : Stored g d p s)
    (hh : (d.tree g).Holds g p i e l)
    (hempty : e.dir = true → ∀ j, (d.tree g).entry (some e.first) j = none)
    (hnext : ∀ c, d'.next c = if c ∈ l then 0 else d.next c) (hw : Within s d d')
    (hent : ∀ j, entryAt (s.slots g) (d'.slot g s) j =
      if j = i then none else entryAt (s.slots g) (d.slot g s) j) :
    Stored g d' p s ∧ (d.tree g).Update g (d'.tree g) p i (some e) none l [] z z := by
  have hsame : ∀ c, c ∉ l → d'.next c = d.next c := fun c hc => by rw [hnext c, if_neg hc]
  have hself : ∀ lp, Stored g d p (.clusters lp) → List.Disjoint lp l := fun lp hlp =>
    hs.dir_apart hg hh hh.dir hlp (hs.no_self hh.dir i e hh.entry)
  have hsp' : Stored g d' p s := hsp.congr fun lp hlp c hc =>
    hsame c fun hcl => hself lp (hlp ▸ hsp) hc hcl
  have hold := hs.chainOf hg hh
  refine ⟨hsp', hh.dir, hh.entry, ?_, hold, rfl, ?_, ?_, ?_, ?_, by simp, ?_⟩
  · rw [hsp'.entry hg, hent i, if_pos rfl]
  · intro q j hq hne
    by_cases hgone : e.dir = true ∧ q = some e.first
    · obtain ⟨hd, rfl⟩ := hgone
      obtain ⟨a, x, rfl⟩ : ∃ a x, l = a :: x := exists_cons_of_ne_nil (hold.2.2 hd)
      have hfirst : e.first = a := hh.first
      rw [hempty hd j]
      rw [hfirst] at hempty ⊢
      refine entry_gone hg hh.chain (hempty hd) (by rw [hnext a, if_pos mem_cons_self]) ?_ j
      exact hw.data a fun lp hlp hmem => hself lp (hlp ▸ hsp) hmem mem_cons_self
    · have ht : Touches s l d d' := .of_within hw hsame
      refine ht.others hg hs hh.dir hsp hsp' (fun j hj => by rw [hent j, if_neg hj]) hq hne
        fun _ lq hlq => ?_
      exact hs.dir_apart hg hh hq hlq fun hd heq => hgone ⟨hd, heq⟩
  · intro c hc _
    exact hsame c fun h => hc (mem_append_left z h)
  · intro c hc hn
    rcases mem_append.mp hc with h | h
    · exact (hnext c).trans (if_pos h)
    · exact absurd h hn
  · intro c hc hn
    exact absurd (mem_append_right l hc) hn
  · by_cases hd : e.dir = true
    · exact .gone (Entry.link_of_dir hd) rfl (hempty hd)
    · exact .same (by
        show e.link = none
        unfold Entry.link
        rw [if_neg hd])

theorem update_grow {c0 c : Nat} (hs : (d.tree g).Sound g z)
    (hp : (d.tree g).IsDir (some c0)) (hsp : Stored g d (some c0) (.clusters l))
    (hext : Extends g True d d' l (l ++ [c])) (hz : c ∉ z) :
    Stored g d' (some c0) (.clusters (l ++ [c])) ∧
      ∃ p i e, e.dir = true ∧
        (d.tree g).Update g (d'.tree g) p i (some e) (some e) l (l ++ [c]) z z := by
  obtain ⟨p, i, e, hh, hd, hfirst⟩ := hs.owner hg hp hsp
  obtain ⟨-, -, hl⟩ := hs.chainOf hg hh
  have hfree := hext.free_last hg
  have hsp' : Stored g d' (some c0) (.clusters (l ++ [c])) := by
    cases hsp with
    | chain _ hhd =>
      refine .chain hext.chain ?_
      rw [head?_append, hhd]
      rfl
  have hall : ∀ q j, (d.tree g).IsDir q → (d'.tree g).entry q j = (d.tree g).entry q j := by
    intro q j hq
    by_cases hqc : q = some c0
    · subst hqc
      rw [hsp.entry hg, hsp'.entry hg, grown_entryAt hg hext j]
    · obtain ⟨sq, hsq⟩ := hs.stored hq
      refine SamePlace.entry hg ⟨fun _ => hext.root, fun lq hlq x hx => ?_⟩ hsq j
      subst hlq
      have hxl : x ∉ l := fun h => hs.places_apart hg hq hp hqc hsq hsp hx h
      have hxc : x ≠ c := fun h => (hs.dir_cluster hg hq hsq hx).1 (h ▸ hfree)
      have hout : x ∉ l ++ [c] := by simp [hxl, hxc]
      exact ⟨hext.same x hout, funext fun k => by rw [hext.data, if_neg fun h => hout h.2.1]⟩
  refine ⟨hsp', p, i, e, hd, hh.dir, hh.entry, (hall p i hh.dir).trans hh.entry, hs.chainOf hg hh,
    ⟨hext.chain, hh.first.trans (hext.headD (hl hd)).symm, fun _ => by simp⟩, fun q j hq _ => hall q j hq,
    ?_, ?_, ?_, ?_, .same rfl⟩
  · intro x _ hx
    exact hext.same x fun h => hx (mem_append_left z h)
  · intro x hx hn
    rcases mem_append.mp hx with h | h
    · exact absurd (mem_append_left z (mem_append_left [c] h)) hn
    · exact absurd (mem_append_right _ h) hn
  · intro x hx hn
    rcases mem_append.mp hx with h | h
    · exact hext.fresh x h fun hl => hn (mem_append_left z hl)
    · exact absurd (mem_append_right l h) hn
  · intro x hx hxz
    rcases mem_append.mp hx with h | h
    · exact hs.loose x hxz _ _ _ _ hh h
    · exact hz (mem_singleton.mp h ▸ hxz)

/-- A slot that said nothing gets an entry, whose chain was on none before. -/
theorem update_place {o' : Option Entry} (hs : (d.tree g).Sound g (l' ++ z))
    (hp : (d.tree g).IsDir p) (hsp : Stored g d p s) (hnone : (d.tree g).entry p i = none)
    (hnext : d'.next = d.next) (hw : Within s d d')
    (hent : ∀ j, entryAt (s.slots g) (d'.slot g s) j =
      if j = i then o' else entryAt (s.slots g) (d.slot g s) j)
    (hchain : (d'.tree g).ChainOf g o' l') (hapart : List.Disjoint l' z)
    (hlink : Tree.Relink (d.tree g) (d'.tree g) none o') :
    Stored g d' p s ∧ (d.tree g).Update g (d'.tree g) p i none o' [] l' (l' ++ z) z := by
  have hsp' : Stored g d' p s := hsp.congr fun _ _ c _ => by rw [hnext]
  have ht : Touches s [] d d' := .of_within hw fun c _ => congrFun hnext c
  refine ⟨hsp', hp, hnone, ?_, rfl, hchain, ?_, ?_, ?_, ?_, hapart, hlink⟩
  · rw [hsp'.entry hg, hent i, if_pos rfl]
  · intro q j hq hne
    exact ht.others hg hs hp hsp hsp' (fun j hj => by rw [hent j, if_neg hj]) hq hne
      fun _ lq _ => by simp
  · intro c _ _
    exact congrFun hnext c
  · intro c hc hn
    exact absurd hc hn
  · intro c hc hn
    exact absurd hc hn

theorem update_file (hs : (d.tree g).Sound g []) (hsp : Stored g d p s)
    (hh : (d.tree g).Holds g p i e l) (hd : e.dir = false) (hd' : e'.dir = false)
    (ht : Touches s (l ++ l') d d') (hent : ∀ j, entryAt (s.slots g) (d'.slot g s) j =
      if j = i then some e' else entryAt (s.slots g) (d.slot g s) j)
    (hchain : d'.IsChain g l') (hfirst : e'.first = l'.headD 0)
    (hfreed : ∀ c ∈ l, c ∉ l' → d'.next c = 0) (htaken : ∀ c ∈ l', c ∉ l → d.next c = 0) :
    Stored g d' p s ∧ (d.tree g).Update g (d'.tree g) p i (some e) (some e') l l' [] [] := by
  -- no directory has a cluster of the file, nor one that was free
  have hapart : ∀ q lq, (d.tree g).IsDir q → Stored g d q (.clusters lq) →
      List.Disjoint lq (l ++ l') := by
    intro q lq hq hsq c hc hcl
    have hl : c ∉ l := fun h =>
      hs.dir_apart hg hh hq hsq (fun hdir => absurd hdir (by simp [hd])) hc h
    rcases mem_append.mp hcl with h | h
    · exact hl h
    · exact (hs.dir_cluster hg hq hsq hc).1 (htaken c h hl)
  have hsp' : Stored g d' p s := hsp.congr fun lp hlp c hc =>
    ht.next c fun h => hapart p lp hh.dir (hlp ▸ hsp) hc h
  have hlink : ∀ x : Entry, x.dir = false → x.link = none := fun x hx => by
    unfold Entry.link
    rw [hx]
    rfl
  refine ⟨hsp', hh.dir, hh.entry, ?_, hs.chainOf hg hh,
    ⟨hchain, hfirst, fun h => absurd h (by simp [hd'])⟩, ?_, ?_, ?_, ?_, by simp, .same ?_⟩
  · rw [hsp'.entry hg, hent i, if_pos rfl]
  · intro q j hq hne
    exact ht.others hg hs hh.dir hsp hsp' (fun j hj => by rw [hent j, if_neg hj]) hq hne
      fun _ lq hlq => hapart q lq hq hlq
  · intro c hc hc'
    rw [append_nil] at hc hc'
    exact ht.next c fun h => (mem_append.mp h).elim hc hc'
  · intro c hc hc'
    rw [append_nil] at hc hc'
    exact hfreed c hc hc'
  · intro c hc hc'
    rw [append_nil] at hc hc'
    exact htaken c hc hc'
  · show e.link = e'.link
    rw [hlink e hd, hlink e' hd']

omit hg

theorem Tree.Sound.reloose {t t' : Tree} {z' : List Nat} (hs : t.Sound g z)
    (hent : ∀ p i, t.IsDir p → t'.entry p i = t.entry p i)
    (houtside : ∀ c, c ∉ z → c ∉ z' → t'.next c = t.next c)
    (hfreed : ∀ c ∈ z, c ∉ z' → t'.next c = 0) (htaken : ∀ c ∈ z', c ∉ z → t.next c = 0) :
    ∃ o l, t.Update g t' none 0 o o l l z z' := by
  -- any slot will do for the one that is said to change
  have hchain : ∃ l, t.ChainOf g (t.entry none 0) l ∧ ∀ c ∈ l, c ∉ z ∧ t.next c ≠ 0 := by
    cases he : t.entry none 0 with
    | none => exact ⟨[], rfl, fun c hc => by cases hc⟩
    | some e =>
      obtain ⟨l, hh, hne⟩ := hs.holds .root he
      refine ⟨l, ⟨hh.chain, hh.first, hne⟩, fun c hc => ⟨fun hz => ?_, ?_⟩⟩
      · exact hs.loose c hz _ _ _ _ hh hc
      · rcases hh.chain.next_valid_or_stop hc with hv | hstop
        · exact validCluster_ne_zero hv
        · exact fun h0 => zero_not_end g (h0 ▸ hstop)
  obtain ⟨l, hl, hused⟩ := hchain
  have hlz' : ∀ c ∈ l, c ∉ z' := fun c hc hz' =>
    (hused c hc).2 (htaken c hz' (hused c hc).1)
  refine ⟨t.entry none 0, l, .root, rfl, hent none 0 .root, hl, ?_, fun q j hq _ => hent q j hq,
    ?_, ?_, ?_, fun c hc hz' => hlz' c hc hz', .same rfl⟩
  · cases he : t.entry none 0 with
    | none =>
      rw [he] at hl
      exact hl
    | some e =>
      rw [he] at hl
      exact ⟨hl.1.congr fun c hc => houtside c (hused c hc).1 (hlz' c hc), hl.2⟩
  · intro c hc hc'
    exact houtside c (fun h => hc (mem_append_right l h)) fun h => hc' (mem_append_right l h)
  · intro c hc hc'
    rcases mem_append.mp hc with h | h
    · exact absurd (mem_append_left z' h) hc'
    · exact hfreed c h fun h' => hc' (mem_append_right l h')
  · intro c hc hc'
    rcases mem_append.mp hc with h | h
    · exact absurd (mem_append_left z h) hc'
    · exact htaken c h fun h' => hc' (mem_append_right l h')

end Changes

end ManiOS.Fat
