import ManiOS.Fat.Reads
import ManiOS.Fat.WellFormed

/-!
# Calls on a file change that file

A node remembers the slot of its directory entry and reads it again before it
writes.  It cannot tell whether the entry there is still its own: a file that
was removed leaves its slot to the next one created, and a write through a node
of the old file then goes to the new one (`onFile_slotReused`).

The other way round, let every call through a node that lost its entry fail to
find what it looks for.  Such a call writes nothing (`Op.refused`), every other
call keeps the volume sound, and so a write or a cut changes the entry and the
clusters of the file its node was opened on and nothing else (`onFile_frame`).
-/

namespace ManiOS.Fat

open ManiOS.Lib
open Proc (exec exec_bind exec_bind_error exec_get)
open Session (call_eq_some gone_next call_next)
open Vol (handle blocks)

/-! ## Calls that find nothing -/

/-- What a call looks for before it writes. -/
def Op.lookup (g : Geometry) : Op → FatM FatNode Unit
  | .walk _ name => do let _ ← entryFind g name
  | .create _ name _ => refuseExisting g name
  | .remove name _ => do let _ ← entryFind g name
  | .rename source _ => do let _ ← entryFind g source
  | .truncate _ => refreshEntry g
  | .write _ _ _ => refreshEntry g

section Refused

variable {g : Geometry} {n n' : FatNode} {v : Vol} {e : Stop}

theorem entryFind_failed {name : CStr}
    (h : (Proc.exec Vol.handle (do let _ ← entryFind g name) n v).1.1 = .error e) :
    ∃ n', (entryFind g name).exec Vol.handle n v = ((.error e, n'), v) := by
  refine (reads_entryFind name).failed ?_
  rw [exec_bind] at h
  rcases hrun : (entryFind g name).exec handle n v with ⟨⟨r, n'⟩, v'⟩
  rw [hrun] at h
  cases r with
  | ok a => cases h
  | error e' =>
    cases h
    exact congrArg (fun x => x.1.1) hrun

/-- An error ends an operation that may only start on a volume that takes
writes. -/
theorem exec_guarded {α β : Type} {m : FatM FatNode α} {f : α → FatM FatNode β}
    (hm : m.exec Vol.handle n v = ((.error e, n'), v)) : ∃ e' n'', Proc.exec Vol.handle (do
      if g.readOnly then throw (.rc .erofs)
      let a ← m
      f a) n v = ((.error e', n''), v) := by
  cases hro : g.readOnly with
  | true => exact ⟨.rc .erofs, n, rfl⟩
  | false => exact ⟨e, n', exec_bind_error _ hm f⟩

theorem exec_rcOf (hread : (refreshEntry g).exec Vol.handle n v = ((.error e, n'), v)) :
    (rcOf (refreshEntry g)).exec handle n v =
      exec handle (match e with
        | .rc err => pure (some err)
        | .hang => throw .hang) n' v := by
  unfold rcOf
  rewrite [Proc.exec_tryCatch, exec_bind, hread]
  cases e with
  | rc err => rfl
  | hang => rfl

theorem fatWrite_refused (hread : (refreshEntry g).exec Vol.handle n v = ((.error e, n'), v))
    (off : Nat) (buf : Buf) (len : Nat) :
    ∃ r n'', (fatWrite g off buf len).exec Vol.handle n v = ((r, n''), v) ∧ ¬ Success r := by
  have hneg : ∀ err : Errno, ¬ Success (.ok err.negated) := fun err =>
    Int.not_le.mpr err.negated_neg
  cases hro : g.readOnly with
  | true =>
    unfold fatWrite
    rw [hro]
    exact ⟨_, n, rfl, hneg .erofs⟩
  | false =>
    unfold fatWrite
    rw [hro, if_neg Bool.false_ne_true, exec_bind, exec_get]
    dsimp only
    by_cases ht : n.type = .dir
    · rw [if_pos ht]
      exact ⟨_, n, rfl, hneg .eisdir⟩
    · rw [if_neg ht]
      cases e with
      | rc err => exact ⟨_, n', Proc.exec_bind_ok _ (exec_rcOf hread) _, hneg err⟩
      | hang => exact ⟨_, n', exec_bind_error _ (exec_rcOf hread) _, fun h => h⟩

/-- A call that does not find what it looks for writes nothing, opens nothing
and fails. -/
theorem Op.refused {op : Op} (h : ((op.lookup g).exec Vol.handle n v).1.1 = .error e) :
    ((op.prog g).exec Vol.handle n v).2 = v ∧
      ¬ Success (((op.prog g).exec Vol.handle n v).1.1.map Prod.fst) ∧
      opened ((op.prog g).exec Vol.handle n v).1.1 = [] := by
  have hdone : ∀ {α : Type} {m : FatM FatNode α} (f : α → FatM FatNode (Int × Option FatNode))
      (e : Stop) (n' : FatNode), m.exec handle n v = ((.error e, n'), v) →
      (exec handle (m >>= f) n v).2 = v ∧
        ¬ Success ((exec handle (m >>= f) n v).1.1.map Prod.fst) ∧
        opened (exec handle (m >>= f) n v).1.1 = [] := by
    intro α m f e n' hm
    rw [exec_bind_error _ hm]
    exact ⟨rfl, fun h => h, rfl⟩
  cases op with
  | walk mem name =>
    obtain ⟨n', hfind⟩ := entryFind_failed h
    exact hdone _ e n' (exec_bind_error _ hfind _)
  | create mem name type =>
    obtain ⟨n', hfind⟩ := (reads_refuseExisting name).failed h
    obtain ⟨e', n'', hrun⟩ := exec_guarded hfind
    exact hdone _ e' n'' hrun
  | remove | rename =>
    obtain ⟨n', hfind⟩ := entryFind_failed h
    obtain ⟨e', n'', hrun⟩ := exec_guarded hfind
    exact hdone _ e' n'' hrun
  | truncate size =>
    obtain ⟨n', hread⟩ := reads_refreshEntry.failed h
    obtain ⟨e', n'', hrun⟩ := exec_guarded hread
    exact hdone _ e' n'' hrun
  | write offset buf len =>
    obtain ⟨n', hread⟩ := reads_refreshEntry.failed h
    obtain ⟨r, n'', hrun, hno⟩ := fatWrite_refused hread offset buf len
    cases r with
    | error e' => exact hdone _ e' n'' hrun
    | ok c =>
      have hret := Proc.exec_bind_ok _ hrun fun c => pure (c, (none : Option FatNode))
      exact ⟨by rw [Op.prog, hret]; rfl, by rw [Op.prog, hret]; exact hno,
        by rw [Op.prog, hret]; rfl⟩

end Refused

/-! ## Steps -/

/-- A call that `vfs.c` may make.  If the node it is made through has lost its
entry, the call does not find what it looks for. -/
structure Session.Tame (c : Nat × Op) (r : Except Stop Int) (s s' : Session) : Prop where
  suits : ∀ n, s.nodes[c.1]? = some n → c.2.Suits n
  call : s.call c.1 c.2 = some (r, s')
  stale : s.gone c.1 → ∀ n, s.nodes[c.1]? = some n →
    ∃ e, (onFs (c.2.lookup s.fs.toGeometry) n s.fs).1.1 = .error e

section Step

variable {g : Geometry} {s s' : Session} {c : Nat × Op} {r : Except Stop Int} {op : Op}

theorem Session.gone_mono {node : Nat} (h : s.call node op = some (r, s')) {j : Nat}
    (hj : s.gone j) : s'.gone j := by
  obtain ⟨n, r', n', fs', -, -, -, rfl⟩ := call_eq_some h
  exact .inl hj

theorem Session.Tame.refused (h : s.Tame c r s') (hover : s.fs.Over g s.fs.vol)
    (hgone : s.gone c.1) : ¬ Success r ∧ s'.fs.Over g s'.fs.vol ∧ s'.fs.vol = s.fs.vol ∧
      ∃ n', s'.nodes = s.nodes.set c.1 n' := by
  obtain ⟨n, r', n', fs', hn, hrun, rfl, rfl⟩ := call_eq_some h.call
  obtain ⟨e, he⟩ := h.stale hgone n hn
  rw [(onFs_over _ n hover).1] at he
  obtain ⟨hvol, hno, hopen⟩ := Op.refused he
  obtain ⟨heq, hover'⟩ := onFs_over (c.2.prog s.fs.toGeometry) n hover
  rw [hrun] at heq hover'
  have hsame : fs'.vol = s.fs.vol := hover'.2.1.trans hvol
  have hres : r' = (onVol (c.2.prog s.fs.toGeometry) n s.fs.vol).1.1 := congrArg Prod.fst heq
  refine ⟨hres ▸ hno, hover'.2.1.symm ▸ hover', hsame, n', ?_⟩
  have hnone : opened r' = [] := hres ▸ hopen
  show s.nodes.set c.1 n' ++ opened r' = _
  rw [hnone, List.append_nil]

/-- The step lemma. -/
theorem Session.Inv.tame (h : s.Inv g) (hc : s.Tame c r s') : s'.Inv g := by
  by_cases hgone : s.gone c.1
  · obtain ⟨-, hover, hvol, n', hnodes⟩ := hc.refused h.cache hgone
    refine ⟨hover, hvol ▸ h.good, hvol ▸ h.sound, fun j m hm hlive => ?_⟩
    have hj : ¬ s.gone j := fun hj => hlive (Session.gone_mono hc.call hj)
    have hne : c.1 ≠ j := fun heq => hj (heq ▸ hgone)
    rw [hnodes, List.getElem?_set_ne hne] at hm
    rw [hvol]
    exact h.nodes j m hm hj
  · exact (h.calls ⟨hgone, hc.suits, hc.call⟩).1

/-- A call that writes or cuts a file through one of its nodes. -/
def Op.OnFile : Op → Prop
  | .truncate _ => True
  | .write _ _ _ => True
  | _ => False

theorem ensures_onFile {agree : Prop} {d : Disk} {n : FatNode} {p : Option Nat}
    {pl : Place} {i : Nat} {e : Entry} {l : List Nat} (hg : g.Fat16) (hro : g.readOnly = false)
    (hf : FileAt g d p pl i e l) (ho : Opened g d n p i e) (ht : n.type ≠ .dir) (hop : op.OnFile) :
    Does g agree (op.prog g) n d fun _ _ d' => OnlyFile g p i l d d' := by
  cases op with
  | walk | create | remove | rename => exact hop.elim
  | truncate size =>
    refine .bind ((ensures_fatTruncate hg hf ho.slot ht ho.notRoot hro size).mono ?_)
    rintro r n' d' (⟨rfl, l', hcut, hshort, -⟩ | ⟨err, rfl, rfl, -⟩)
    · exact .pure ((hcut.rewritten hg hf).only hg hf (Nat.lt_of_le_of_lt hshort.le (hf.size_lt hg)))
    · exact ((Cut.refl hg hf).rewritten hg hf).only hg hf (hf.size_lt hg)
  | write offset buf len =>
    refine .bind ((ensures_fatWrite hg hf ho.slot ht ho.notRoot hro offset buf len).mono ?_)
    rintro r n' d' ⟨k, l', rfl, hres, -⟩
    exact .pure ((hres.wrote.rewritten hg hf).only hg hf (hres.wrote.size_lt hg (hf.size_lt hg)))

theorem onFile_idle {n : FatNode} (hop : op.OnFile) (hsuit : op.Suits n) (v : Vol)
    (h : g.readOnly = true ∨ n.type = .dir) :
    ∃ x, onVol (op.prog g) n v = ((x, n), v) ∧ ¬ Success (x.map Prod.fst) := by
  cases op with
  | walk | create | remove | rename => exact hop.elim
  | truncate size =>
    have hro : g.readOnly = true := h.resolve_right hsuit
    refine ⟨.error (.rc .erofs), ?_, fun h => h⟩
    show exec handle (fatTruncate g size >>= _) n v = _
    unfold fatTruncate
    rw [hro]
    rfl
  | write offset buf len =>
    by_cases hro : g.readOnly = true
    · refine ⟨.ok (Errno.erofs.negated, none), ?_, Int.not_le.mpr (Errno.negated_neg _)⟩
      show exec handle (fatWrite g offset buf len >>= _) n v = _
      unfold fatWrite
      rw [hro]
      rfl
    · have ht := h.resolve_left hro
      refine ⟨.ok (Errno.eisdir.negated, none), ?_, Int.not_le.mpr (Errno.negated_neg _)⟩
      show exec handle (fatWrite g offset buf len >>= _) n v = _
      unfold fatWrite
      rw [if_neg hro, exec_bind, exec_bind, exec_get]
      dsimp only
      rw [if_pos ht]
      rfl

end Step

/-! ## Runs -/

section Run

variable {mem : Nat → Bool} {dev : Device} {fs : FatFs} {root : FatNode} {s s' : Session}
  {c : Nat × Op} {r : Except Stop Int}

/-- What a call on a file does to a session: nothing, or it is made through a
node that has its entry and changes that entry and its clusters. -/
def Session.Frames (g : Geometry) (node : Nat) (r : Except Stop Int) (s s' : Session) : Prop :=
  (¬ Success r ∧ s'.fs.vol.blocks = s.fs.vol.blocks) ∨
    (¬ s.gone node ∧ ∃ n p i e l, s.nodes[node]? = some n ∧ n.Remembers p i ∧
      ((s.fs.vol.disk g).tree g).Holds g p i e l ∧ e.dir = false ∧
      OnlyFile g p i l (s.fs.vol.disk g) (s'.fs.vol.disk g))

theorem Session.Tame.idle {g : Geometry} (h : s.Tame c r s') (hop : c.2.OnFile)
    (hover : s.fs.Over g s.fs.vol)
    (hidle : g.readOnly = true ∨ ∀ n, s.nodes[c.1]? = some n → n.type = .dir) :
    s.Frames g c.1 r s' := by
  obtain ⟨n, r', n', fs', hn, hrun, rfl, rfl⟩ := call_eq_some h.call
  have hgeo : s.fs.toGeometry = g := hover.2.2
  obtain ⟨x, hx, hno⟩ := onFile_idle (g := g) hop (h.suits n hn) s.fs.vol
    (hidle.imp_right fun hdir => hdir n hn)
  obtain ⟨heq, hover'⟩ := onFs_over (c.2.prog g) n hover
  rw [hgeo] at hrun
  rw [hrun, hx] at heq hover'
  obtain rfl : r' = x := congrArg Prod.fst heq
  exact .inl ⟨hno, congrArg blocks hover'.2.1⟩

/-- In every run in which a call through a node that lost its entry finds
nothing, a call on a file changes that file only. -/
theorem onFile_frame (hmount : fatMount mem dev = .ok (fs, root)) (hdev : fs.Sound)
    (hv : Intact fs.toGeometry fs.vol)
    (hrun : Reached (fun c s s' => ∃ r, Session.Tame c r s s') (Session.start fs root) s)
    (hstep : s.Tame c r s') (hop : c.2.OnFile) : s.Frames fs.toGeometry c.1 r s' := by
  by_cases hro : fs.readOnly = true
  · have hover := Reached.invariant (P := fun s : Session => s.fs.Over fs.toGeometry s.fs.vol)
      ⟨hdev, rfl, rfl⟩ (fun c s s' hover ⟨r, hc⟩ => by
        obtain ⟨n, r', n', fs', hn, hcall, rfl, rfl⟩ := call_eq_some hc.call
        have hover' := (onFs_over (c.2.prog s.fs.toGeometry) n hover).2
        rw [hcall] at hover'
        exact hover'.2.1.symm ▸ hover') hrun
    exact hstep.idle hop hover (.inl hro)
  · have hinv := Reached.invariant (P := fun s : Session => s.Inv fs.toGeometry)
      (Session.start_inv hmount hdev (Bool.eq_false_iff.mpr hro) hv)
      (fun c s s' hinv ⟨r, hc⟩ => hinv.tame hc) hrun
    by_cases hgone : s.gone c.1
    · obtain ⟨hno, -, hvol, -⟩ := hstep.refused hinv.cache hgone
      exact .inl ⟨hno, congrArg blocks hvol⟩
    · obtain ⟨n, r', n', fs', hn, hcall, rfl, rfl⟩ := call_eq_some hstep.call
      have hnode := hinv.nodes c.1 n hn hgone
      by_cases ht : n.type = .dir
      · exact hstep.idle hop hinv.cache (.inr fun m hm => Option.some.inj (hn.symm.trans hm) ▸ ht)
      · cases hnode with
        | root h => exact absurd h.type ht
        | entry ho =>
          obtain ⟨pl, l, hf⟩ := ho.fileAt hinv.sound ht
          rw [hinv.cache.2.2] at hcall
          obtain ⟨-, -, honly⟩ := Ensures.onFs (ensures_onFile hinv.good.geometry hinv.writable
            hf ho ht hop) hinv.cache hinv.good hcall
          exact .inr ⟨hgone, n, _, _, _, l, hn, ho.slot, hf.holds, hf.file, honly⟩

end Run

theorem Session.Calls.tame {s s' : Session} {node : Nat} {op : Op} {r : Except Stop Int}
    (h : s.Calls node op r s') : Session.Tame (node, op) r s s' :=
  ⟨h.suits, h.call, fun hgone => absurd hgone h.linked⟩

/-- A write to a new file changes that file. -/
theorem onFile_frame_blank :
    ∃ r s', blankWithFile.call 1 (.write 600 (fun _ => 7) 1) = some (r, s') ∧
      blankWithFile.Frames smallGeometry 1 r s' := by
  obtain ⟨r1, hcreate, -⟩ := blankWithFile_succeeds
  obtain ⟨r, hwrite, -⟩ := blankWithFile_writes
  exact ⟨r, _, hwrite.call, onFile_frame (fatMount_small _) (smallFs_sound _)
    blank_wellFormed.toIntact (.step _ .start ⟨r1, hcreate.tame⟩) hwrite.tame trivial⟩

/-! ### A slot used again -/

/-- A file is removed while a node of it is open, and another is created, which
gets its slot. -/
def slotReused : Session :=
  (blankWithFile.next 0 (.remove [65] .file)).next 0 (.create true [66] .file)

theorem slotReused_gone : slotReused.gone 1 := by
  have hroot : blankWithFile.nodes[0]? = some (dirAt true 0) := by decide +kernel
  have hroot' : (blankWithFile.next 0 (.remove [65] .file)).nodes[0]? = some (dirAt true 0) := by
    decide +kernel
  refine (gone_next hroot' _).mpr (.inl ((gone_next hroot _).mpr (.inr ?_)))
  refine ⟨fileInRoot, blankWithFile_node, ?_⟩
  rintro (hno | ⟨p, i, hslot, -, hentry⟩)
  · cases hno
  · obtain ⟨rfl, rfl⟩ := hslot.unique (show fileInRoot.Remembers none 0 from ⟨rfl, rfl, rfl⟩)
    exact hentry (by decide +kernel)

/-- A write through the node of the removed file gives the other one its size
and a cluster. -/
theorem onFile_slotReused :
    fatMount (fun _ => true) (smallDisk fun _ => 0) = .ok (blankFs, dirAt true 0) ∧
      WellFormed blankFs.toGeometry blankFs.vol ∧
      Reached (fun (c : Nat × Op) s s' => ∃ r, s.call c.1 c.2 = some (r, s'))
        (Session.start blankFs (dirAt true 0)) slotReused ∧
      slotReused.nodes[2]? = some fileInRoot ∧
      ((slotReused.fs.vol.disk smallGeometry).tree smallGeometry).entry none 0 =
        some ⟨false, 0, 0⟩ ∧
      ∃ s', slotReused.call 1 (.write 0 (fun _ => 7) 1) = some (.ok 1, s') ∧
        ((s'.fs.vol.disk smallGeometry).tree smallGeometry).entry none 0 = some ⟨false, 2, 1⟩ ∧
        ¬ slotReused.Frames smallGeometry 1 (.ok 1) s' := by
  have hcall : ∀ {s : Session} {n : FatNode} (op : Op), s.nodes[0]? = some n →
      ∃ r, s.call 0 op = some (r, s.next 0 op) := fun op hn => ⟨_, (call_next hn op).1⟩
  have hnode : slotReused.nodes[1]? = some fileInRoot := by decide +kernel
  refine ⟨fatMount_small _, blank_wellFormed, ?_, by decide +kernel, by decide +kernel,
    slotReused.next 1 (.write 0 (fun _ => 7) 1), ?_, by decide +kernel, ?_⟩
  · exact .step (0, _) (.step (0, _) (.step (0, _) .start (hcall _ (n := dirAt true 0) rfl))
      (hcall _ (n := dirAt true 0) (by decide +kernel)))
      (hcall _ (n := dirAt true 0) (by decide +kernel))
  · have hret : (onFs (Op.prog slotReused.fs.toGeometry (.write 0 (fun _ => 7) 1)) fileInRoot
        slotReused.fs).1.1.map Prod.fst = .ok 1 := by
      decide +kernel
    rw [(call_next hnode _).1, hret]
  · rintro (⟨hno, -⟩ | ⟨hlive, -⟩)
    · exact hno (by decide)
    · exact hlive slotReused_gone

end ManiOS.Fat
