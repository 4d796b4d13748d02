import ManiOS.Fat.Effects

/-!
# What `fat_create` and `fat_walk` do

`fat_create` takes a cluster for a new directory before it has an entry for it,
so for a while that cluster is on no chain.  Its steps are followed with the
list of such clusters (`DirPart`): taken and filled, then owned by the new
entry, and handed back wherever a later step fails.
-/

namespace ManiOS.Fat

open ManiOS.Lib List

/-- What some steps of a call through a node of directory `p` leave, with the
clusters `z` on no chain. -/
structure DirPart (g : Geometry) (d : Disk) (n : FatNode) (p : Option Nat) (n' : FatNode)
    (d' : Disk) (s' : Place) (z : List Nat) : Prop where
  moved : Moved n n'
  sound : (d'.tree g).Sound g z
  sized : (d.tree g).Sized g → (d'.tree g).Sized g
  keeps : (d.tree g).Keeps g (d'.tree g)
  node : DirNode g d' n' p s'

/-- A chain `z` no entry owns yet, and the entry that is to own it. -/
structure Newborn (g : Geometry) (d : Disk) (e : Entry) (z : List Nat) : Prop where
  chain : d.IsChain g z
  first : e.first = z.headD 0
  dir : e.dir = true → ∃ c, z = [c] ∧ ∀ j, (d.tree g).entry (some c) j = none
  file : e.dir = false → z = [] ∧ e.size = 0

section Parts

variable {g : Geometry} {agree : Prop} {d d1 d' : Disk} {n n1 n' : FatNode} {p : Option Nat}
  {s s1 s' : Place} {i : Nat} {e : Entry} {z z1 z' : List Nat}

theorem DirPart.trans (h : DirPart g d n p n1 d1 s1 z1) (h' : DirPart g d1 n1 p n' d' s' z') :
    DirPart g d n p n' d' s' z' :=
  ⟨h.moved.trans h'.moved, h'.sound, fun hz => h'.sized (h.sized hz), h.keeps.trans h'.keeps,
    h'.node⟩

theorem DirPart.op (h : DirPart g d n p n' d' s' []) : DirOp g d n p n' d' :=
  ⟨h.moved, h.sound, h.sized, h.keeps.step, s', h.node⟩

theorem DirPart.trans_op (h : DirPart g d n p n1 d1 s1 z) (h' : DirOp g d1 n1 p n' d') :
    DirOp g d n p n' d' :=
  ⟨h.moved.trans h'.moved, h'.sound, fun hz => h'.sized (h.sized hz), h.keeps.trans_step h'.step,
    h'.node⟩

theorem DirPart.idle (hs : (d.tree g).Sound g z) (h : DirNode g d n p s) (hm : Moved n n')
    (hat : NodeAt g d n' s) : DirPart g d n p n' d s z :=
  ⟨hm, hs, id, .refl _, h.moved hm hat⟩

/-- An update that leaves the entry of its slot as it was, and its chain longer
at most, is a part. -/
theorem Tree.Update.part {q : Option Nat} {o : Option Entry} {l l' : List Nat}
    (hg : g.Fat16) (hs : (d.tree g).Sound g z)
    (u : (d.tree g).Update g (d'.tree g) q i o o l l' z z')
    (hdir : ∀ e, o = some e → l' = l ∨ (e.dir = true ∧ ∃ ex, l' = l ++ ex)) (hm : Moved n n')
    (hn : DirNode g d' n' p s') : DirPart g d n p n' d' s' z' := by
  refine ⟨hm, u.sound hg hs, fun hz => u.sized hg hs hz ?_, u.keeps hg hs id ?_, hn⟩
  · intro e ho hfile
    have hchain := u.oldChain
    rw [ho] at hchain
    rcases hdir e ho with rfl | ⟨hd, -⟩
    · exact hz q i e l' ⟨u.dir, u.old.trans ho, hchain.1, hchain.2.1⟩ hfile
    · exact absurd hd (by simp [hfile])
  · intro e e' ho ho' hd
    rcases hdir e ho with rfl | ⟨-, hex⟩
    · exact ⟨[], (append_nil _).symm⟩
    · exact hex

/-! ## Clusters on no chain -/

/-- Clusters are taken or handed back, and may be written meanwhile.  The
directories see nothing of it. -/
theorem part_loose (d' : Disk) (z' : List Nat) (hg : g.Fat16) (hs : (d.tree g).Sound g z)
    (hn : DirNode g d n p s) (hroot : d'.root = d.root)
    (hsame : ∀ c, c ∉ z → c ∉ z' → d'.next c = d.next c ∧ d'.data c = d.data c)
    (hfreed : ∀ c ∈ z, c ∉ z' → d'.next c = 0) (htaken : ∀ c ∈ z', c ∉ z → d.next c = 0) :
    DirPart g d n p n d' s z' ∧ ∀ j < s.slots g, d'.slot g s j = d.slot g s j := by
  -- a cluster of a directory is neither free nor loose
  have hin : ∀ q sq, (d.tree g).IsDir q → Stored g d q sq → SamePlace sq d d' := by
    intro q sq hq hsq
    refine ⟨fun _ => hroot, fun lq hl c hc => ?_⟩
    subst hl
    obtain ⟨hused, hcz⟩ := hs.dir_cluster hg hq hsq hc
    exact hsame c hcz fun hz' => hused (htaken c hz' hcz)
  have hent : ∀ q j, (d.tree g).IsDir q → (d'.tree g).entry q j = (d.tree g).entry q j := by
    intro q j hq
    obtain ⟨sq, hsq⟩ := hs.stored hq
    exact (hin q sq hq hsq).entry hg hsq j
  obtain ⟨o, l, u⟩ := hs.reloose hent (fun c hc hc' => (hsame c hc hc').1) hfreed htaken
  have hpin := hin p s hn.dir hn.stored
  have hnode : DirNode g d' n p s := by
    refine ⟨(u.keeps hg hs id fun _ _ _ _ _ => ⟨[], (append_nil l).symm⟩).isDir hn.dir,
      hpin.stored hn.stored, ?_, hn.type⟩
    cases s with
    | root => exact hn.node
    | clusters l =>
      have hon : OnChain g d n l := hn.node
      exact ⟨hon.notRoot, hon.chain.congr fun c hc => (hpin.clusters l rfl c hc).1, hon.first,
        hon.cursor⟩
  exact ⟨u.part hg hs (fun e _ => .inl rfl) (.refl n) hnode, fun j hj => hpin.slot hj⟩

theorem Newborn.congr (hg : g.Fat16) (h : Newborn g d e z)
    (hsame : ∀ c ∈ z, d'.next c = d.next c ∧ d'.data c = d.data c) : Newborn g d' e z := by
  refine ⟨h.chain.congr fun c hc => (hsame c hc).1, h.first, fun hd => ?_, h.file⟩
  obtain ⟨c, rfl, hempty⟩ := h.dir hd
  refine ⟨c, rfl, fun j => ?_⟩
  have hsp : Stored g d (some c) (.clusters [c]) := .chain h.chain rfl
  have hplace : SamePlace (.clusters [c]) d d' :=
    ⟨fun h => (nomatch h), fun l hl a ha => by cases hl; exact hsame a ha⟩
  rw [hplace.entry hg hsp j]
  exact hempty j

/-! ## The first cluster -/

theorem ensures_ignoring {σ : Type} {m : FatM σ Unit} {n : σ} {post : σ → Disk → Prop}
    (h : Does g agree m n d fun r n' d' => r = .ok () ∧ post n' d') :
    Does g agree (ignoring m) n d fun r n' d' => r = .ok () ∧ post n' d' := by
  refine .bind (.tryCatch (.bind (h.mono ?_)))
  rintro r n' d' ⟨rfl, hpost⟩
  exact .pure (.pure ⟨rfl, hpost⟩)

theorem ensures_freeLoose (hg : g.Fat16) (hs : (d.tree g).Sound g z) (hn : DirNode g d n p s)
    (hz : d.IsChain g z) {c : Nat} (hc : z.headD 0 = c) :
    Does g agree (ignoring (freeChain g c)) n d fun r n' d' =>
      r = .ok () ∧ DirPart g d n p n' d' s [] := by
  refine ensures_ignoring ((ensures_freeChain hg hz hc).mono ?_)
  rintro r n' d' ⟨rfl, rfl, hint, rfl⟩
  refine ⟨rfl, (part_loose ((d.freed z).setHint hint) [] hg hs hn rfl ?_ ?_ ?_).1⟩
  · intro c hc _
    exact ⟨if_neg hc, rfl⟩
  · intro c hc _
    exact if_pos hc
  · intro c hc
    cases hc

/-- The entry `fat_create` writes. -/
def createdEntry (type : VnodeType) (first : Nat) : Entry :=
  ⟨decide (type = .dir), if type = .dir then first else 0, 0⟩

theorem ensures_newFirst (hg : g.Fat16) (hs : (d.tree g).Sound g []) (hn : DirNode g d n p s)
    (type : VnodeType) : Does g agree (newFirst g type) n d fun r n' d' => n' = n ∧
      ((∃ first z, r = .ok first ∧ first = z.headD 0 ∧ Newborn g d' (createdEntry type first) z ∧
          DirPart g d n p n d' s z ∧ ∀ j < s.slots g, d'.slot g s j = d.slot g s j) ∨
        (r = .error (.rc .enospc) ∧ d' = d)) := by
  unfold newFirst createdEntry
  by_cases ht : type = .dir
  · rw [if_pos ht]
    refine .bind (ensures_allocCluster.mono ?_)
    rintro r n' d1 ⟨rfl, ⟨c, hint, rfl, hc, hfree, rfl⟩ | ⟨rfl, rfl, -⟩⟩
    · have hchain : ((d.setNext c (endMarker g)).setHint hint).IsChain g [c] :=
        .singleton hc (by
          show isEndOfChain g (if c = c then endMarker g else d.next c) = true
          rw [if_pos rfl]
          exact endMarker_end g)
      refine .bind (.tryCatch ((yields_newDirectory hg hchain).post (.pure ?_)))
      obtain ⟨hpart, hslots⟩ := part_loose
        (((d.setNext c (endMarker g)).setHint hint).put g (.clusters [c]) 0
          (dirBlock c (if n'.fixedRoot then 0 else n'.firstCluster)) 96) [c] hg hs hn rfl
        (fun a _ ha => ⟨if_neg fun h => ha (mem_singleton.mpr h),
          Disk.put_data_outside _ ha _ _ _⟩)
        (fun a ha => by cases ha) (fun a ha _ => by rw [mem_singleton.mp ha, hfree])
      refine ⟨rfl, .inl ⟨c, [c], rfl, rfl, ⟨hchain, if_pos ht, fun _ => ⟨c, rfl, fun j => ?_⟩,
        fun h => absurd ht (of_decide_eq_false h)⟩, hpart, hslots⟩⟩
      have hsp : Stored g (((d.setNext c (endMarker g)).setHint hint).put g (.clusters [c]) 0
          (dirBlock c (if n'.fixedRoot then 0 else n'.firstCluster)) 96) (some c)
          (.clusters [c]) := .chain hchain rfl
      rw [hsp.entry hg]
      exact dirBlock_entryAt hg _ j
    · exact ⟨rfl, .inr ⟨rfl, rfl⟩⟩
  · rw [if_neg ht]
    exact .pure ⟨rfl, .inl ⟨0, [], rfl, rfl, ⟨.nil, if_neg ht,
      fun h => absurd (of_decide_eq_true h) ht, fun _ => ⟨rfl, rfl⟩⟩,
      .idle hs hn (.refl n) hn.node, fun _ _ => rfl⟩⟩

/-! ## The entry -/

variable {first : Nat} {type : VnodeType} {a : Buf}

theorem newEntry_eq {j : Nat} (hj : j < 26 ∨ 28 ≤ j) :
    newEntry a type first j = putLe16 (putLe16 (setByte (memcpy (fun _ => 0) 0 a 0 11) 11
      (if type = .dir then attrDirectory else attrArchive)) 16 fatDateEpoch) 24 fatDateEpoch j := by
  by_cases ht : type = .dir
  · rw [newEntry, if_pos ht, putLe16_outside (by omega)]
  · rw [newEntry, if_neg ht]

theorem newEntry_name (a : Buf) (type : VnodeType) (first : Nat) : newEntry a type first 0 = a 0 :=
  newEntry_eq (by omega)

theorem newEntry_attr (a : Buf) (type : VnodeType) (first : Nat) :
    newEntry a type first 11 = if type = .dir then attrDirectory else attrArchive :=
  newEntry_eq (by omega)

theorem newEntry_cluster (a : Buf) (type : VnodeType) (h : first < 65536) :
    entryCluster (newEntry a type first) = if type = .dir then first else 0 := by
  by_cases ht : type = .dir
  · rw [newEntry, if_pos ht, if_pos ht, if_pos ht]
    exact le16_putLe16 _ 26 h
  · rw [newEntry, if_neg ht, if_neg ht, if_neg ht]
    refine (le16_congr (q := fun _ => 0) fun i hi => ?_).trans (by decide)
    rw [shift, putLe16_outside (by omega), putLe16_outside (by omega), setByte_ne _ (by omega)]
    exact memcpy_outside (by omega)

theorem newEntry_size (a : Buf) (type : VnodeType) (first : Nat) :
    entrySize (newEntry a type first) = 0 := by
  refine (le32_congr (q := fun _ => 0) fun i hi => ?_).trans (by decide)
  rw [shift, newEntry_eq (by omega), putLe16_outside (by omega), putLe16_outside (by omega),
    setByte_ne _ (by omega)]
  exact memcpy_outside (by omega)

theorem named_newEntry (ha : GoodFirst (a 0))
    (hfirst : first < 65536) : named (newEntry a type first) = some (createdEntry type first) := by
  obtain ⟨-, hdel, hdot⟩ := ha
  have hvis : isVisible (newEntry a type first) = true := by
    rw [isVisible, isListed, newEntry_attr, newEntry_name]
    cases type <;> simp [hdel, hdot] <;> decide
  rw [named_of_visible hvis, entryOf, isDirEntry, newEntry_attr, newEntry_cluster a type hfirst,
    newEntry_size]
  cases type <;> rfl

section

variable (hg : g.Fat16) (hs : (d.tree g).Sound g z) (hn : DirNode g d n p s) (hb : Newborn g d e z)
include hg hs hn hb

theorem part_place (hnone : (d.tree g).entry p i = none) (hnext : d'.next = d.next)
    (hw : Within s d d') (hent : ∀ j, entryAt (s.slots g) (d'.slot g s) j =
      if j = i then some e else entryAt (s.slots g) (d.slot g s) j)
    (hm : Moved n n') (hat : NodeAt g d' n' s) :
    DirPart g d n p n' d' s [] ∧ (d'.tree g).Holds g p i e z ∧ Newborn g d' e z := by
  -- the directory's clusters are not the new chain's
  have hb' : Newborn g d' e z := hb.congr hg fun c hc =>
    ⟨congrFun hnext c, hw.data c fun l hl hcl =>
      (hs.dir_cluster hg hn.dir (hl ▸ hn.stored) hcl).2 hc⟩
  have hlink : Tree.Relink (d.tree g) (d'.tree g) none (some e) := by
    by_cases hd : e.dir = true
    · obtain ⟨c, rfl, hempty⟩ := hb'.dir hd
      have hfirst : e.first = c := hb.first
      exact .new rfl (by rw [Option.bind_some, Entry.link_of_dir hd, hfirst]) hempty
    · exact .same (by rw [Option.bind_some, Entry.link, if_neg hd]; rfl)
  have hz : z = z ++ [] := (append_nil z).symm
  obtain ⟨hsp', u⟩ := update_place hg (hz ▸ hs) hn.dir hn.stored hnone hnext hw hent
    ⟨hb'.chain, hb'.first, fun hd => by
      obtain ⟨c, rfl, -⟩ := hb'.dir hd
      exact cons_ne_nil c []⟩ (by simp) hlink
  rw [append_nil] at u
  refine ⟨⟨hm, u.sound hg hs, fun hsz => u.sized hg hs hsz ?_, u.keeps hg hs (by simp)
    fun e _ h => (nomatch h), u.dir_new, hsp', hat, hm.type.trans hn.type⟩, u.holds_self rfl, hb'⟩
  rintro _ ⟨⟩ hfile
  obtain ⟨rfl, hsize⟩ := hb'.file hfile
  have hpos := bpc_pos hg.toUsable
  rw [hsize, Nat.div_eq_of_lt (by omega)]
  rfl

theorem part_grow (hgrows : Grows g d s d1 s1) : DirPart g d n p n d1 s1 z ∧ Newborn g d1 e z := by
  cases hgrows with
  | stay => exact ⟨.idle hs hn (.refl n) hn.node, hb⟩
  | @more l c _ hext hne =>
    obtain ⟨c0, rfl⟩ : ∃ c0, p = some c0 := by
      cases hn.stored with
      | chain hl hc => exact ⟨_, rfl⟩
    have hcz : c ∉ z := fun h =>
      (Disk.IsChain.next_used hb.chain h) (hext.free_last hg)
    obtain ⟨hsp, q, i, e', hdir, u⟩ := update_grow hg hs hn.dir hn.stored hext hcz
    have hnode : DirNode g d1 n (some c0) (.clusters (l ++ [c])) :=
      ⟨(u.keeps hg hs id fun _ _ _ _ _ => ⟨[c], rfl⟩).isDir hn.dir, hsp,
        .extend hn.node hne hext, hn.type⟩
    refine ⟨u.part hg hs (fun e h => .inr ⟨?_, [c], rfl⟩) (.refl n) hnode, hb.congr hg ?_⟩
    · cases h
      exact hdir
    · intro a ha
      have hal : a ∉ l := fun h => (hs.dir_cluster hg hn.dir hn.stored h).2 ha
      have hac : a ∉ l ++ [c] := by
        rw [mem_append, mem_singleton]
        rintro (h | rfl)
        · exact hal h
        · exact hcz ha
      exact ⟨hext.same a hac, funext fun k => by rw [hext.data, if_neg fun h => hac h.2.1]⟩

theorem ensures_placeNew {atEnd : Bool} {x : Buf} (hfree : FreeSlot g d s i atEnd)
    (hx : x 0 ≠ entryEnd) (hname : named x = some e) :
    Does g agree (entryPlace g (32 * i) x atEnd) n d fun r n' d' =>
      (r = .ok () ∧ ∃ s', DirPart g d n p n' d' s' [] ∧ (d'.tree g).Holds g p i e z ∧
          Newborn g d' e z) ∨
        (r = .error (.rc .enospc) ∧ d' = d ∧ Moved n n' ∧ NodeAt g d n' s) := by
  have hne : s ≠ .clusters [] := by
    rintro rfl
    cases hn.stored with
    | chain hl hc => cases hc
  refine (ensures_entryPlace hg hn.node hn.type hne hfree
    (fun _ _ _ => .inr (.inr hg.fat12)) hx).mono ?_
  rintro r n' d' ⟨hm, ⟨rfl, d1, s1, hat, hpl⟩ | ⟨rfl, rfl, hat⟩⟩
  · obtain ⟨hpart, hb1⟩ := part_grow hg hs hn hb hpl.grows
    have hn1 := hpart.node
    have hsame : ∀ j, entryAt (s1.slots g) (d1.slot g s1) j =
        entryAt (s.slots g) (d.slot g s) j := by
      intro j
      cases hpl.grows with
      | stay => rfl
      | more hext _ => exact grown_entryAt hg hext j
    obtain ⟨hpart', hh, hb'⟩ := part_place hg hpart.sound hn1 hb1
      ((hn1.stored.entry hg i).trans ((hsame i).trans hfree.entryAt)) hpl.next hpl.within
      (fun j => by rw [hpl.entries j, hname, hsame j]) hm hat
    exact .inl ⟨rfl, s1, hpart.trans hpart', hh, hb'⟩
  · exact .inr ⟨rfl, rfl, hm, hat⟩

end

/-- A new entry taken back: the slot is deleted, its clusters are handed back. -/
theorem ensures_undoCreate {c : Nat} (hg : g.Fat16)
    (hs : (d.tree g).Sound g []) (hn : DirNode g d n p s) (hh : (d.tree g).Holds g p i e z)
    (hb : Newborn g d e z) (hc : z.headD 0 = c) (htype : type = .dir ↔ e.dir = true)
    {post : Except Stop FatNode → FatNode → Disk → Prop}
    (hpost : ∀ n' d', DirOp g d n p n' d' → post (.error (.rc .enomem)) n' d') : Does g agree (do
      ignoring (entryDelete g (32 * i))
      if type = .dir then ignoring (freeChain g c)
      throw (.rc .enomem)) n d post := by
  have hempty : e.dir = true → ∀ j, (d.tree g).entry (some e.first) j = none := by
    intro hd
    obtain ⟨c, rfl, hempty⟩ := hb.dir hd
    have hfirst : e.first = c := hb.first
    rw [hfirst]
    exact hempty
  obtain ⟨hi, hused, -, -⟩ := entryAt_eq_some ((hn.stored.entry hg i).symm.trans hh.entry)
  refine .bind ((ensures_ignoring (ensures_entryDelete hg hn.node hi hused)).mono ?_)
  rintro r n1 d1 ⟨rfl, hm, hat, hdrop⟩
  by_cases ht : type = .dir
  · rw [if_pos ht]
    have hchain : d1.IsChain g z := hb.chain.congr fun c _ => congrFun hdrop.next c
    refine .bind ((ensures_ignoring (ensures_freeChain hg hchain hc)).mono ?_)
    rintro r n2 d2 ⟨rfl, rfl, hint, rfl⟩
    refine .throw (hpost _ _ (op_remove hg hs hn hh hempty (fun c => ?_) ?_ ?_ hm
      (hn.freed hg hs hh hat)).1)
    · rw [← hdrop.next]
      rfl
    · exact ⟨hdrop.within.root, hdrop.within.data⟩
    · exact hdrop.entries
  · rw [if_neg ht]
    have hfile : e.dir = false := Bool.eq_false_iff.mpr fun h => ht (htype.mpr h)
    obtain ⟨rfl, -⟩ := hb.file hfile
    exact .throw (hpost _ _ (op_remove hg hs hn hh hempty
      (fun c => by rw [hdrop.next, if_neg (not_mem_nil)]) hdrop.within hdrop.entries hm hat).1)

/-! ## The call -/

/-- The node remembers slot `i` of directory `p` as its own. -/
structure FatNode.Remembers (m : FatNode) (p : Option Nat) (i : Nat) : Prop where
  hasEntry : m.hasEntry = true
  entryDir : (if m.entryDirFixed then none else some m.entryDirCluster) = p
  entryOff : m.entryOff = 32 * i

/-- A node as `fat_create` and `fat_walk` make it, whose entry is there. -/
structure Opened (g : Geometry) (d : Disk) (m : FatNode) (p : Option Nat) (i : Nat) (e : Entry) :
    Prop where
  dir : (d.tree g).IsDir p
  entry : (d.tree g).entry p i = some e
  slot : m.Remembers p i
  notRoot : m.fixedRoot = false
  type : m.type = .dir ↔ e.dir = true
  sub : e.dir = true → ∃ s, DirNode g d m (some e.first) s

theorem DirNode.eq (h : DirNode g d n p s) :
    (if n.fixedRoot then none else some n.firstCluster) = p := by
  cases h.stored with
  | root =>
    have hroot : n.fixedRoot = true := h.node
    rw [if_pos hroot]
  | @chain c l hl hc =>
    have hon : OnChain g d n l := h.node
    rw [hon.notRoot, hon.first]
    cases l with
    | nil => cases hc
    | cons a l => exact congrArg some (Option.some.inj hc)

theorem ensures_refuseExisting (hg : g.Fat16) (h : NodeAt g d n s) (name : CStr) :
    Does g agree (refuseExisting g name) n d <| Scanned g d n s fun r =>
      r = .ok () ∨ r = .error (.rc .eexist) := by
  refine .tryCatch (.bind ((ensures_entryFind hg h name).mono ?_))
  rintro r n' d' ⟨rfl, hm, hat, ⟨i, rfl, -⟩ | rfl⟩
  · exact .throw (.throw ⟨rfl, hm, hat, .inr rfl⟩)
  · exact .pure ⟨rfl, hm, hat, .inl rfl⟩

theorem FreeSlot.congr {atEnd : Bool} (h : FreeSlot g d s i atEnd)
    (hsame : ∀ j < s.slots g, d'.slot g s j = d.slot g s j) : FreeSlot g d' s i atEnd := by
  cases atEnd with
  | false =>
    obtain ⟨hi, hused, hdel⟩ := h
    refine ⟨hi, fun j hj => ?_, ?_⟩
    · rw [hsame j (by omega)]
      exact hused j hj
    · rw [hsame i hi]
      exact hdel
  | true =>
    obtain ⟨hused, hend⟩ := h
    refine ⟨fun j hj => ?_, hend.imp (fun ⟨hlt, he⟩ => ⟨hlt, ?_⟩)
      fun ⟨hlast, hroot, hdel⟩ => ⟨hlast, hroot, fun j hj => ?_⟩⟩
    · rw [hsame j (by omega)]
      exact hused j hj
    · rw [hsame i hlt]
      exact he
    · rw [hsame j (by omega)]
      exact hdel j hj

/-- What `fat_create` does once it has a name and a slot. -/
theorem ensures_createAt {atEnd : Bool} (hg : g.Fat16) (hs : (d.tree g).Sound g [])
    (hn : DirNode g d n p s) (ha : GoodFirst (a 0)) (hslot : FreeSlot g d s i atEnd) (mem : Bool)
    (type : VnodeType) : Does g agree (do
      let first ← newFirst g type
      tryCatch (entryPlace g (32 * i) (newEntry a type first) atEnd) fun e => do
        if type = .dir then ignoring (freeChain g first)
        throw e
      if !mem then
        ignoring (entryDelete g (32 * i))
        if type = .dir then ignoring (freeChain g first)
        throw (.rc .enomem)
      let d ← Proc.get
      pure {
        type := type, size := 0, fixedRoot := false, firstCluster := first, cursorIndex := 0,
        cursorCluster := 0, hasEntry := true, entryDirFixed := d.fixedRoot,
        entryDirCluster := d.firstCluster, entryOff := 32 * i }) n d fun r n' d' =>
      DirOp g d n p n' d' ∧ ∀ m, r = .ok m → ∃ i e, Opened g d' m p i e := by
  refine .bind ((ensures_newFirst hg hs hn type).mono ?_)
  rintro r n1 d1 ⟨rfl, ⟨first, z, rfl, hfirst, hb, hpart, hslots⟩ | ⟨rfl, rfl⟩⟩
  · have hx : newEntry a type first 0 ≠ entryEnd := by
      rw [newEntry_name]
      exact ha.1
    have hlt : first < 65536 := by
      rw [hfirst]
      by_cases hz : z = []
      · rw [hz]
        exact Nat.zero_lt_succ _
      · exact valid_lt_65536 hg (hb.chain.headD_valid hz)
    have htype : type = .dir ↔ (createdEntry type first).dir = true := decide_eq_true_iff.symm
    refine .bind (.tryCatch ((ensures_placeNew hg hpart.sound hpart.node hb
      (hslot.congr hslots) hx (named_newEntry ha hlt)).mono ?_))
    rintro r n2 d2 (⟨rfl, s2, hpart2, hh, hb2⟩ | ⟨rfl, rfl, hm, hat⟩)
    · have hpart' := hpart.trans hpart2
      have hn2 := hpart2.node
      by_cases hmem : mem = true
      · rw [hmem]
        refine .get_bind (.pure ⟨hpart'.op, ?_⟩)
        rintro _ ⟨⟩
        refine ⟨i, _, hh.dir, hh.entry, ⟨rfl, hn2.eq, rfl⟩, rfl, htype, fun hd => ?_⟩
        obtain ⟨c, rfl, -⟩ := hb2.dir hd
        refine ⟨.clusters [c], .sub hh.dir hh.entry hd, .chain hb2.chain ?_,
          ⟨rfl, hb2.chain, hfirst, .inl rfl⟩, htype.mpr hd⟩
        rw [hb2.first]
        rfl
      · rw [Bool.not_eq_true] at hmem
        rw [hmem]
        refine ensures_undoCreate hg hpart2.sound hn2 hh hb2 hfirst.symm htype ?_
        intro n' d' hop
        exact ⟨hpart'.trans_op hop, fun _ h => nomatch h⟩
    · have hn2 := hpart.node.moved hm hat
      have hidle : DirPart g d n1 p n2 d2 s z := ⟨hm, hpart.sound, hpart.sized, hpart.keeps, hn2⟩
      by_cases ht : type = .dir
      · dsimp only
        rw [if_pos ht]
        refine .bind ((ensures_freeLoose hg hpart.sound hn2 hb.chain hfirst.symm).mono ?_)
        rintro r n3 d3 ⟨rfl, hpart3⟩
        exact .throw ⟨(hidle.trans hpart3).op, fun _ h => nomatch h⟩
      · dsimp only
        rw [if_neg ht]
        obtain ⟨rfl, -⟩ := hb.file (decide_eq_false ht)
        exact .throw ⟨hidle.op, fun _ h => nomatch h⟩
  · exact ⟨.idle hs hn (.refl n1) hn.node, fun _ h => nomatch h⟩

theorem ensures_fatCreate (hg : g.Fat16) (hs : (d.tree g).Sound g []) (hn : DirNode g d n p s)
    (mem : Bool) (name : CStr) (type : VnodeType) :
    Does g agree (fatCreate g mem name type) n d fun r n' d' =>
      DirOp g d n p n' d' ∧ ∀ m, r = .ok m → ∃ i e, Opened g d' m p i e := by
  unfold fatCreate
  refine .guard (fun _ => ⟨.idle hs hn (.refl n) hn.node, fun _ h => nomatch h⟩)
    fun _ => ?_
  refine .bind ((ensures_refuseExisting hg hn.node name).mono ?_)
  rintro r n1 d1 ⟨rfl, hm1, hat1, rfl | rfl⟩
  · refine .bind ((ensures_makeEntryName hg hat1 name none).mono ?_)
    rintro r n2 d2 ⟨rfl, hm2, hat2, ⟨a, rfl, ha⟩ | ⟨err, rfl⟩⟩
    · refine .bind ((ensures_entrySlot hg hat2).mono ?_)
      rintro r n3 d3 ⟨rfl, hm3, hat3, ⟨k, atEnd, rfl, hslot⟩ | rfl⟩
      · have hn3 := hn.moved ((hm1.trans hm2).trans hm3) hat3
        refine (ensures_createAt hg hs hn3 ha hslot mem type).mono ?_
        rintro r n4 d4 ⟨hop, hnew⟩
        exact ⟨hop.after ((hm1.trans hm2).trans hm3), hnew⟩
      · exact ⟨.idle hs hn ((hm1.trans hm2).trans hm3) hat3, fun _ h => nomatch h⟩
    · exact ⟨.idle hs hn (hm1.trans hm2) hat2, fun _ h => nomatch h⟩
  · exact ⟨.idle hs hn hm1 hat1, fun _ h => nomatch h⟩

/-- `fat_walk`: the node of an entry a scan shows, as the entry is now. -/
theorem ensures_fatWalk (hg : g.Fat16) (hs : (d.tree g).Sound g z)
    (hn : DirNode g d n p s) (mem : Bool) (name : CStr) :
    Does g agree (fatWalk g mem name) n d fun r n' d' =>
      d' = d ∧ Moved n n' ∧ DirNode g d n' p s ∧ ∀ m, r = .ok m → ∃ i,
        m = newNode n' (d.slot g s i) (32 * i) ∧ Found g d s i ∧
          Opened g d m p i (entryOf (d.slot g s i)) := by
  refine .bind ((ensures_entryFind hg hn.node name).mono ?_)
  rintro r n' d' ⟨rfl, hm, hat, ⟨i, rfl, hfound⟩ | rfl⟩
  · have hn' := hn.moved hm hat
    refine .guard (fun _ => ⟨rfl, hm, hn', fun _ h => nomatch h⟩) fun _ => ?_
    refine .get_bind (.pure ⟨rfl, hm, hn', ?_⟩)
    rintro _ ⟨⟩
    obtain ⟨l, hh, hne⟩ := hfound.holds hg hs hn.dir hn.stored
    have htype : (newNode n' (d'.slot g s i) (32 * i)).type = .dir ↔
        (entryOf (d'.slot g s i)).dir = true := by
      unfold newNode entryOf
      cases isDirEntry (d'.slot g s i) <;> simp
    refine ⟨i, rfl, hfound, hh.dir, hh.entry, ⟨rfl, hn'.eq, rfl⟩, rfl, htype, fun hd => ?_⟩
    exact ⟨.clusters l, .sub hh.dir hh.entry hd, .chain hh.chain (hh.head_eq (hne hd)),
      ⟨rfl, hh.chain, hh.first, .inl rfl⟩, htype.mpr hd⟩
  · exact ⟨rfl, hm, hn.moved hm hat, fun _ h => nomatch h⟩

end Parts

end ManiOS.Fat
