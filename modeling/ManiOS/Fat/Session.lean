import ManiOS.Fat.Rewrite
import ManiOS.Lib.Runs

/-!
# Sessions

A session is a mounted volume and the nodes that are open on it.  A call is
made through one of them, and may open another.  `gone` keeps which nodes lost
their directory entry since they were opened: the slot a node remembers may be
used again, so this cannot be read off the volume later.

Every call made through a node that still has its entry leaves a sound volume,
whatever it returns, and every node that still has its entry then is still one
of that entry (`Session.Inv`).
-/

namespace ManiOS.Fat

open ManiOS.Lib

/-- What can be called through a node. -/
inductive Op where
  | walk (mem : Bool) (name : CStr)
  | create (mem : Bool) (name : CStr) (type : VnodeType)
  | remove (name : CStr) (expect : VnodeType)
  | rename (source dest : CStr)
  | truncate (size : Nat)
  | write (offset : Nat) (buf : Buf) (len : Nat)

/-- The call: what it returns, and the node it opens. -/
def Op.prog (g : Geometry) : Op → FatM FatNode (Int × Option FatNode)
  | .walk mem name => do let m ← fatWalk g mem name; pure (0, some m)
  | .create mem name type => do let m ← fatCreate g mem name type; pure (0, some m)
  | .remove name expect => do fatRemove g name expect; pure (0, none)
  | .rename source dest => do fatRename g source dest; pure (0, none)
  | .truncate size => do fatTruncate g size; pure (0, none)
  | .write offset buf len => do let v ← fatWrite g offset buf len; pure (v, none)

/-- What `vfs.c` checks before it calls: names are looked up and changed in
directories, and only what is no directory is cut. -/
def Op.Suits (n : FatNode) : Op → Prop
  | .truncate _ => n.type ≠ .dir
  | .write _ _ _ => True
  | _ => n.type = .dir

/-- A mounted volume and the nodes open on it. -/
structure Session where
  fs : FatFs
  nodes : List FatNode
  /-- The nodes that lost their directory entry since they were opened. -/
  gone : Nat → Prop

/-- The directory entry of a node is there. -/
def FatNode.Linked (g : Geometry) (d : Disk) (n : FatNode) : Prop :=
  n.hasEntry = false ∨ ∃ p i, n.Remembers p i ∧ (d.tree g).IsDir p ∧ (d.tree g).entry p i ≠ none

def opened : Except Stop (Int × Option FatNode) → List FatNode
  | .ok (_, some m) => [m]
  | _ => []

/-- The session after a call through node `node` that ended with `r`, with the
node as `n` and the volume as `fs`. -/
def Session.after (s : Session) (node : Nat) (r : Except Stop (Int × Option FatNode))
    (n : FatNode) (fs : FatFs) : Session where
  fs := fs
  nodes := s.nodes.set node n ++ opened r
  gone j := s.gone j ∨ ∃ m, s.nodes[j]? = some m ∧
    ¬ m.Linked fs.toGeometry (fs.vol.disk fs.toGeometry)

/-- A call through node `node`: what it returns, and the session after it. -/
def Session.call (s : Session) (node : Nat) (op : Op) : Option (Except Stop Int × Session) := do
  let n ← s.nodes[node]?
  let ((r, n'), fs) := onFs (op.prog s.fs.toGeometry) n s.fs
  some (r.map Prod.fst, s.after node r n' fs)

def Session.next (s : Session) (node : Nat) (op : Op) : Session :=
  match s.call node op with
  | some (_, s') => s'
  | none => s

def Session.start (fs : FatFs) (root : FatNode) : Session := ⟨fs, [root], fun _ => False⟩

/-- A call through an open node that has its entry, of the kind `vfs.c` makes. -/
structure Session.Calls (s : Session) (node : Nat) (op : Op) (r : Except Stop Int)
    (s' : Session) : Prop where
  linked : ¬ s.gone node
  suits : ∀ n, s.nodes[node]? = some n → op.Suits n
  call : s.call node op = some (r, s')

/-! ## Open nodes -/

/-- A node that still has its entry: the root, or a node as `fat_create` and
`fat_walk` make it. -/
inductive NodeOk (g : Geometry) (d : Disk) (n : FatNode) : Prop
  | root (h : DirNode g d n none .root)
  | entry {p : Option Nat} {i : Nat} {e : Entry} (h : Opened g d n p i e)

section Nodes

variable {g : Geometry} {d d' : Disk} {n n' : FatNode} {p q : Option Nat} {s : Place} {i : Nat}
  {e e' : Entry}

theorem FatNode.Remembers.unique {j : Nat} (h : n.Remembers p i) (h' : n.Remembers q j) :
    p = q ∧ i = j := by
  have hoff := h.entryOff.symm.trans h'.entryOff
  exact ⟨h.entryDir.symm.trans h'.entryDir, by omega⟩

theorem FatNode.Remembers.moved (h : n.Remembers p i) (hm : Moved n n') : n'.Remembers p i := by
  obtain ⟨_, _, rfl⟩ := hm
  exact { h with }

theorem DirNode.grown {c : Nat} {l ex : List Nat} (h : DirNode g d n (some c) (.clusters l))
    (hdir : (d'.tree g).IsDir (some c)) (hl : (d'.tree g).IsChain g (l ++ ex)) :
    DirNode g d' n (some c) (.clusters (l ++ ex)) := by
  have hon : OnChain g d n l := h.node
  cases h.stored with
  | chain _ hc =>
    have hhead : (l ++ ex).head? = some c := by
      rw [List.head?_append, hc]
      rfl
    have hheadD : (l ++ ex).headD 0 = l.headD 0 := by
      cases l with
      | nil => cases hc
      | cons a t => rfl
    refine ⟨hdir, .chain hl hhead, ⟨hon.notRoot, hl, hon.first.trans hheadD.symm, ?_⟩, h.type⟩
    refine hon.cursor.imp_right fun hcur => ?_
    rw [List.getElem?_append_left (List.getElem?_eq_some_iff.mp hcur).1]
    exact hcur

theorem DirNode.clusters {c : Nat} (h : DirNode g d n (some c) s) :
    ∃ l, s = .clusters l ∧ d.IsChain g l ∧ l.head? = some c := by
  cases h.stored with
  | chain hl hc => exact ⟨_, rfl, hl, hc⟩

theorem Opened.step (h : Opened g d n p i e) (hstep : (d.tree g).Step g (d'.tree g))
    (hp : (d'.tree g).IsDir p) (he : (d'.tree g).entry p i = some e') : Opened g d' n p i e' := by
  obtain ⟨hdir, hfirst⟩ := hstep.kept p i e e' h.dir h.entry hp he
  refine ⟨hp, he, h.slot, h.notRoot, by rw [hdir]; exact h.type, fun hd => ?_⟩
  rw [hdir] at hd
  obtain ⟨s, hn⟩ := h.sub hd
  obtain ⟨l, rfl, hl, hc⟩ := hn.clusters
  have hsub : (d'.tree g).IsDir (some e.first) := hfirst hd ▸ .sub hp he (hdir ▸ hd)
  obtain ⟨ex, hex⟩ := hstep.grown e.first l hn.dir hsub hl hc
  exact ⟨_, hfirst hd ▸ hn.grown hsub hex⟩

theorem NodeOk.step (h : NodeOk g d n) (hstep : (d.tree g).Step g (d'.tree g))
    (hlinked : n.Linked g d') : NodeOk g d' n := by
  cases h with
  | root h => exact .root ⟨.root, .root, h.node, h.type⟩
  | @entry p i e h =>
    rcases hlinked with hno | ⟨q, j, hslot, hq, he⟩
    · exact absurd (h.slot.hasEntry.symm.trans hno) (by decide)
    · obtain ⟨rfl, rfl⟩ := h.slot.unique hslot
      obtain ⟨e', he'⟩ := Option.ne_none_iff_exists'.mp he
      exact .entry (h.step hstep hq he')

theorem NodeOk.dirNode (h : NodeOk g d n) (ht : n.type = .dir) : ∃ p s, DirNode g d n p s := by
  cases h with
  | root h => exact ⟨none, .root, h⟩
  | entry h =>
    obtain ⟨s, hn⟩ := h.sub (h.type.mp ht)
    exact ⟨_, s, hn⟩

theorem NodeOk.dirOp (h : NodeOk g d n) (hn : DirNode g d n p s) (hop : DirOp g d n p n' d')
    (hlinked : n.Linked g d') : NodeOk g d' n' := by
  obtain ⟨s', hn'⟩ := hop.node
  cases h with
  | root h =>
    obtain rfl : p = none := hn.eq.symm.trans h.eq
    cases hn'.stored
    exact .root hn'
  | @entry q j e h =>
    have hd : e.dir = true := h.type.mp hn.type
    obtain ⟨s0, hn0⟩ := h.sub hd
    obtain rfl : p = some e.first := hn.eq.symm.trans hn0.eq
    rcases hlinked with hno | ⟨q', j', hslot, hq, he⟩
    · exact absurd (h.slot.hasEntry.symm.trans hno) (by decide)
    · obtain ⟨rfl, rfl⟩ := h.slot.unique hslot
      obtain ⟨e', he'⟩ := Option.ne_none_iff_exists'.mp he
      obtain ⟨hdir, hfirst⟩ := hop.step.kept q j e e' h.dir h.entry hq he'
      refine .entry ⟨hq, he', h.slot.moved hop.moved, ?_, ?_, fun _ => ⟨s', ?_⟩⟩
      · obtain ⟨_, _, rfl⟩ := hop.moved
        exact h.notRoot
      · rw [hop.moved.type, hdir]
        exact h.type
      · rw [hfirst hd]
        exact hn'

theorem Opened.file {first size index cluster : Nat} (h : Opened g d n p i e)
    (hfile : e.dir = false) :
    Opened g d { n with firstCluster := first, size := size, cursorIndex := index,
                        cursorCluster := cluster } p i e :=
  ⟨h.dir, h.entry, { h.slot with }, h.notRoot, h.type, fun hd => absurd hd (by simp [hfile])⟩

theorem Opened.fileAt (hs : (d.tree g).Sound g []) (h : Opened g d n p i e) (ht : n.type ≠ .dir) :
    ∃ s l, FileAt g d p s i e l := by
  obtain ⟨s, hsp⟩ := hs.stored h.dir
  obtain ⟨l, hh, -⟩ := hs.holds h.dir h.entry
  exact ⟨s, l, hs, hsp, hh, Bool.eq_false_iff.mpr fun hd => ht (h.type.mpr hd)⟩

end Nodes

/-! ## What a call leaves -/

def Success : Except Stop Int → Prop
  | .ok v => 0 ≤ v
  | .error _ => False

instance (r : Except Stop Int) : Decidable (Success r) :=
  match r with
  | .ok v => inferInstanceAs (Decidable (0 ≤ v))
  | .error _ => inferInstanceAs (Decidable False)

/-- What a call through a node that has its entry leaves. -/
structure OpDone (g : Geometry) (d : Disk) (n : FatNode) (r : Except Stop (Int × Option FatNode))
    (n' : FatNode) (d' : Disk) : Prop where
  sound : (d'.tree g).Sound g []
  step : (d.tree g).Step g (d'.tree g)
  sized : (d.tree g).Sized g → Success (r.map Prod.fst) → (d'.tree g).Sized g
  node : n.Linked g d' → NodeOk g d' n'
  opens : ∀ v m, r = .ok (v, some m) → NodeOk g d' m

section Calls

variable {g : Geometry} {agree : Prop} {d d' : Disk} {n n' : FatNode} {p : Option Nat} {s : Place}
  {i : Nat} {e : Entry} {l l' : List Nat} {r : Except Stop (Int × Option FatNode)}

theorem ceil_pos {b x : Nat} (hb : 0 < b) (hx : 0 < x) : (x + b - 1) / b = (x - 1) / b + 1 := by
  rw [← Nat.add_div_right _ hb]
  congr 1
  omega

theorem ceil_of_dvd {b q : Nat} (hb : 0 < b) : (q * b + b - 1) / b = q := by
  rw [Nat.add_sub_assoc hb, mul_comm, Nat.mul_add_div hb, Nat.div_eq_of_lt (by omega),
    add_zero]

theorem le_ceil_mul {b : Nat} (hb : 0 < b) (x : Nat) : x ≤ (x + b - 1) / b * b := by
  have hsplit := Nat.div_add_mod (x + b - 1) b
  have hmod := Nat.mod_lt (x + b - 1) hb
  rw [mul_comm] at hsplit
  omega

theorem Tree.Sized.fits (hg : g.Fat16) {t : Tree} (h : t.Sized g) (hh : t.Holds g p i e l)
    (hfile : e.dir = false) : e.size ≤ l.length * g.bytesPerCluster := by
  rw [h p i e l hh hfile]
  exact le_ceil_mul (bpc_pos hg.toUsable) e.size

/-- After a successful write the chain is as long as the size needs. -/
theorem WriteResult.sized {off len k : Nat} {buf : Buf} (hg : g.Fat16)
    (h : WriteResult g d s i e l off buf len k d' l')
    (hl : l.length = (e.size + g.bytesPerCluster - 1) / g.bytesPerCluster)
    (hok : 0 ≤ writeValue len k) :
    l'.length = (sizeAfter e.size off k + g.bytesPerCluster - 1) / g.bytesPerCluster := by
  have hb := bpc_pos hg.toUsable
  have hk := h.wrote.lt hg
  have hle : ∀ {x y : Nat}, x ≤ y →
      (x + g.bytesPerCluster - 1) / g.bytesPerCluster ≤
        (y + g.bytesPerCluster - 1) / g.bytesPerCluster :=
    fun hxy => Nat.div_le_div_right (by omega)
  obtain ⟨hmore, hk31⟩ := writeValue_nonneg hk hok
  obtain ⟨r, ⟨rfl, -, hlen⟩ | ⟨hlt, -, hL, -, ⟨h0, -⟩ | ⟨hpos, -, hfull⟩⟩⟩ := h.ends
  · unfold reach at hlen
    by_cases h0 : k = 0
    · rw [if_pos h0] at hlen
      rw [hlen, hl, sizeAfter, if_neg fun hc => by rw [toLong_pos hk] at hc; omega]
    · rw [if_neg h0, ← ceil_pos hb (by omega)] at hlen
      rw [hlen, hl, sizeAfter]
      split
      next hc => exact max_eq_right (hle (by omega))
      next hc =>
        have hpos : 0 < toLong k := (toLong_pos hk).mpr ⟨by omega, hk31⟩
        exact max_eq_left (hle (by omega))
  · omega
  · have hpos' : 0 < toLong k := (toLong_pos hk).mpr ⟨hpos, hk31⟩
    have hceil : (off + k + g.bytesPerCluster - 1) / g.bytesPerCluster = l'.length := by
      rw [← hfull]
      exact ceil_of_dvd hb
    rw [sizeAfter]
    split
    next hc => exact hceil.symm
    next hc =>
      have hge := hle (show off + k ≤ e.size by omega)
      omega

theorem Shortened.sized {size : Nat} (hg : g.Fat16) (hf : FileAt g d p s i e l)
    (h : Shortened g e l size l')
    (hl : l.length = (e.size + g.bytesPerCluster - 1) / g.bytesPerCluster) :
    l'.length = (size + g.bytesPerCluster - 1) / g.bytesPerCluster := by
  have hb := bpc_pos hg.toUsable
  cases h with
  | all hsize hl' =>
    rw [hsize, hl', Nat.div_eq_of_lt (by omega)]
    rfl
  | none hsize hl' => rw [hsize, hl', hl]
  | some hsize hne hlen =>
    have hmax : l.length * g.bytesPerCluster ≤ 65524 * 65536 := size_clusters_le hg hf.holds.chain
    have hble := bpc_le hg.toUsable
    have hfit : e.size ≤ l.length * g.bytesPerCluster := by
      rw [hl]
      exact le_ceil_mul hb e.size
    have hle : (size + g.bytesPerCluster - 1) / g.bytesPerCluster ≤ l.length := by
      rw [hl]
      exact Nat.div_le_div_right (by omega)
    have hge : 0 < (size + g.bytesPerCluster - 1) / g.bytesPerCluster := by
      rw [ceil_pos hb hsize.1]
      exact Nat.succ_pos _
    rw [hlen, clustersKept, u32_of_lt (by omega)]
    omega

theorem OpDone.of_dirOp (hn : NodeOk g d n) (hdn : DirNode g d n p s) (hop : DirOp g d n p n' d')
    (hopens : ∀ v m, r = .ok (v, some m) → NodeOk g d' m) : OpDone g d n r n' d' :=
  ⟨hop.sound, hop.step, fun hz _ => hop.sized hz, hn.dirOp hdn hop, hopens⟩

theorem OpDone.idle (hs : (d.tree g).Sound g [])
    (hn : NodeOk g d n') (hopens : ∀ v m, r = .ok (v, some m) → NodeOk g d m) : OpDone g d n r n' d :=
  ⟨hs, (Tree.Keeps.refl _).step, fun hz _ => hz, fun _ => hn, hopens⟩

theorem OpDone.of_update {e' : Entry} (hg : g.Fat16)
    (hs : (d.tree g).Sound g []) (ho : Opened g d n p i e) (hfile : e.dir = false)
    (u : (d.tree g).Update g (d'.tree g) p i (some e) (some e') l l' [] [])
    (hsized : (d.tree g).Sized g → Success (r.map Prod.fst) →
      l'.length = (e'.size + g.bytesPerCluster - 1) / g.bytesPerCluster)
    {first size index cluster : Nat}
    (hnode : n' = { n with firstCluster := first, size := size, cursorIndex := index,
                           cursorCluster := cluster })
    (hopens : ∀ v m, r ≠ .ok (v, some m)) : OpDone g d n r n' d' := by
  have hkept := u.link_kept rfl rfl
  have hstep : (d.tree g).Step g (d'.tree g) := u.step hg hs fun a b ha hb hd => by
    cases ha
    exact absurd hd (by simp [hfile])
  refine ⟨u.sound hg hs, hstep, fun hz hok => u.sized hg hs hz ?_, fun _ => ?_,
    fun v m h => absurd h (hopens v m)⟩
  · rintro _ ⟨⟩ _
    exact hsized hz hok
  · rw [hnode]
    exact .entry ((ho.step hstep u.dir_new u.new).file (hkept.1.trans hfile))

section

variable (hg : g.Fat16) (hro : g.readOnly = false) (hs : (d.tree g).Sound g []) (hn : NodeOk g d n)
include hg hro hs hn

theorem ensures_opTruncate (ht : n.type ≠ .dir) (size : Nat) :
    Does g agree ((Op.truncate size).prog g) n d (OpDone g d n) := by
  cases hn with
  | root h => exact absurd h.type ht
  | entry ho =>
    obtain ⟨s, l, hf⟩ := ho.fileAt hs ht
    refine .bind ((ensures_fatTruncate hg hf ho.slot ht ho.notRoot hro size).mono ?_)
    rintro r n' d' (⟨rfl, l', hcut, hshort, hnode⟩ | ⟨err, rfl, rfl, hnode⟩)
    · obtain ⟨-, u⟩ := (hcut.rewritten hg hf).update hg hf
        (lt_of_le_of_lt hshort.le (hf.size_lt hg))
      exact .pure (.of_update hg hs ho hf.file u
        (fun hz _ => hshort.sized hg hf (hz _ _ _ _ hf.holds hf.file)) hnode
        fun _ _ h => (nomatch h))
    · subst hnode
      exact .idle hs (.entry (ho.file hf.file)) fun _ _ h => (nomatch h)

theorem ensures_opWrite (offset : Nat) (buf : Buf) (len : Nat) :
    Does g agree ((Op.write offset buf len).prog g) n d (OpDone g d n) := by
  by_cases ht : n.type = .dir
  · refine .bind ?_
    unfold fatWrite
    rw [hro]
    refine .get_bind ?_
    rw [if_pos ht]
    exact .pure (.pure (.idle hs hn fun _ _ h => (nomatch h)))
  · cases hn with
    | root h => exact absurd h.type ht
    | entry ho =>
      obtain ⟨s, l, hf⟩ := ho.fileAt hs ht
      refine .bind ((ensures_fatWrite hg hf ho.slot ht ho.notRoot hro offset buf len).mono ?_)
      rintro r n' d' ⟨k, l', rfl, hres, hnode⟩
      obtain ⟨-, u⟩ := (hres.wrote.rewritten hg hf).update hg hf
        (hres.wrote.size_lt hg (hf.size_lt hg))
      exact .pure (.of_update hg hs ho hf.file u
        (fun hz hok => hres.sized hg (hz _ _ _ _ hf.holds hf.file) hok) hnode
        fun _ _ h => (nomatch h))

/-- Every call through a node that has its entry. -/
theorem ensures_op (op : Op) (hsuit : op.Suits n) :
    Does g agree (op.prog g) n d (OpDone g d n) := by
  cases op with
  | walk mem name =>
    obtain ⟨p, s, hdn⟩ := hn.dirNode hsuit
    refine .bind ((ensures_fatWalk hg hs hdn mem name).mono ?_)
    rintro r n' d' ⟨rfl, hm, hdn', hnew⟩
    have hop := DirOp.idle hs hdn hm hdn'.node
    cases r with
    | error err => exact .of_dirOp hn hdn hop fun _ _ h => (nomatch h)
    | ok m =>
      refine .pure (.of_dirOp hn hdn hop ?_)
      rintro _ _ ⟨⟩
      obtain ⟨i, -, -, ho⟩ := hnew m rfl
      exact .entry ho
  | create mem name type =>
    obtain ⟨p, s, hdn⟩ := hn.dirNode hsuit
    refine .bind ((ensures_fatCreate hg hs hdn mem name type).mono ?_)
    rintro r n' d' ⟨hop, hnew⟩
    cases r with
    | error err => exact .of_dirOp hn hdn hop fun _ _ h => (nomatch h)
    | ok m =>
      refine .pure (.of_dirOp hn hdn hop ?_)
      rintro _ _ ⟨⟩
      obtain ⟨i, e, ho⟩ := hnew m rfl
      exact .entry ho
  | remove name expect =>
    obtain ⟨p, s, hdn⟩ := hn.dirNode hsuit
    refine .bind ((ensures_fatRemove hg hs hdn name expect).mono ?_)
    rintro r n' d' hop
    cases r with
    | error err => exact .of_dirOp hn hdn hop fun _ _ h => (nomatch h)
    | ok a => exact .pure (.of_dirOp hn hdn hop fun _ _ h => (nomatch h))
  | rename source dest =>
    obtain ⟨p, s, hdn⟩ := hn.dirNode hsuit
    refine .bind ((ensures_fatRename hg hs hdn source dest).mono ?_)
    rintro r n' d' hop
    cases r with
    | error err => exact .of_dirOp hn hdn hop fun _ _ h => (nomatch h)
    | ok a => exact .pure (.of_dirOp hn hdn hop fun _ _ h => (nomatch h))
  | truncate size => exact ensures_opTruncate hg hro hs hn hsuit size
  | write offset buf len => exact ensures_opWrite hg hro hs hn offset buf len

end

end Calls

end ManiOS.Fat
